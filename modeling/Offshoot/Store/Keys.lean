import Offshoot.Lib.Numeral
import Offshoot.Store.Collapse

/-!
# The keys of data objects

`SnapshotKey`, `SegmentKey`, `BaseKey` and `ParseMemberKey` of `internal/store/store.go`, as
text.  The epoch is printed as short as it is and the txids at a fixed width in hex, so a key
is read back by its slashes and dashes, and keys of one directory and kind sort by txid.
-/

namespace Offshoot.Keys

open List

variable {n : UInt64}

open Numeral

abbrev Text := List Char

def dataDir : Text := ['d', 'a', 't', 'a', '/']
def snapshotDash : Text := ['s', 'n', 'a', 'p', 's', 'h', 'o', 't', '-']
def segmentDash : Text := ['s', 'e', 'g', 'm', 'e', 'n', 't', '-']
def dotLtx : Text := ['.', 'l', 't', 'x']
def baseJson : Text := ['b', 'a', 's', 'e', '.', 'j', 's', 'o', 'n']

example : String.ofList (dataDir ++ snapshotDash ++ segmentDash ++ dotLtx ++ baseJson) =
    "data/snapshot-segment-.ltxbase.json" := by decide

/-! ## Building a key -/

def decimal (n : UInt64) : Text := text (plain 10 n.toNat)

def hex (n : UInt64) : Text := text (fixed 16 16 n.toNat)

structure NewLineage where
  bytes : List UInt8
  length_eq : bytes.length = 16

def NewLineage.id (l : NewLineage) : Text := l.bytes.flatMap fun b => text (fixed 16 2 b.toNat)

def lineagePrefix (lineage : Text) : Text := dataDir ++ (lineage ++ ['/'])

def snapshotKey (lineage : Text) (epoch txid : UInt64) : Text :=
  dataDir ++ (lineage ++ '/' :: (decimal epoch ++ '/' :: (snapshotDash ++ (hex txid ++ dotLtx))))

def segmentKey (lineage : Text) (epoch minTXID maxTXID : UInt64) : Text :=
  dataDir ++ (lineage ++ '/' :: (decimal epoch ++ '/' ::
    (segmentDash ++ (hex maxTXID ++ '-' :: (hex minTXID ++ dotLtx)))))

def baseKey (lineage : Text) : Text := dataDir ++ (lineage ++ '/' :: baseJson)

/-! ## Reading it back -/

/-- `strings.TrimSuffix(strings.TrimPrefix(file, kind), ".ltx")`. -/
def trimFile (kind file : Text) : Text :=
  let rest := (file.dropPrefix? kind).getD file
  (rest.dropSuffix? dotLtx).getD rest

/-- The file name of a member, under the epoch of its directory. -/
def parseFile (key : Text) (epoch : Nat) (file : Text) : Option (ChainMember Text) :=
  if snapshotDash.isPrefixOf file && dotLtx.isSuffixOf file then
    match parseUint 16 64 (trimFile snapshotDash file) with
    | none => none
    | some txid => some ⟨key, true, 0, txid, epoch⟩
  else if segmentDash.isPrefixOf file && dotLtx.isSuffixOf file then
    match (trimFile segmentDash file).splitOn '-' with
    | [maxStr, minStr] =>
      match parseUint 16 64 maxStr with
      | none => none
      | some maxTXID =>
        match parseUint 16 64 minStr with
        | none => none
        | some minTXID => some ⟨key, false, minTXID, maxTXID, epoch⟩
    | _ => none
  else none

def parseMemberKey (key : Text) : Option (ChainMember Text) :=
  match key.dropPrefix? dataDir with
  | none => none
  | some rest =>
    match rest.splitOn '/' with
    | [lineage, epochStr, file] =>
      if lineage = [] then none
      else
        match parseUint 10 64 epochStr with
        | none => none
        | some epoch => parseFile key epoch file
    | _ => none

/-! ## Parts of a key -/

theorem parseUint_decimal : parseUint 10 64 (decimal n) = some n.toNat := by
  have hv : value 10 (plain 10 n.toNat) = n.toNat := value_plain
  rw [decimal,
    parseUint_text (by omega) plain_ne_nil (fun d hd => lt_of_mem_plain (by omega) hd), hv]
  rw [hv]
  exact n.toNat_lt

theorem toNat_lt_pow (n : UInt64) : n.toNat < 16 ^ 16 := n.toNat_lt

theorem length_hex : (hex n).length = 16 := by
  rw [hex, text, length_map, length_fixed (by omega) (toNat_lt_pow n)]

theorem parseUint_hex : parseUint 16 64 (hex n) = some n.toNat := by
  have hv : value 16 (fixed 16 16 n.toNat) = n.toNat := value_fixed
  have hne : fixed 16 16 n.toNat ≠ [] := by
    rw [ne_eq, ← length_eq_zero_iff, length_fixed (by omega) (toNat_lt_pow n)]
    omega
  rw [hex, parseUint_text (by omega) hne (fun d hd => lt_of_mem_fixed (by omega) hd), hv]
  rw [hv]
  exact n.toNat_lt

theorem hex_lt_hex {m : UInt64} : hex n < hex m ↔ n < m :=
  text_fixed_lt_iff (by omega) (by omega) (toNat_lt_pow n) (toNat_lt_pow m)

theorem hex_inj {m : UInt64} : hex n = hex m ↔ n = m :=
  ⟨fun h => UInt64.toNat_inj.mp (text_fixed_inj (by omega) (by omega) h), fun h => congrArg hex h⟩

theorem not_mem_decimal {c : Char} (hc : digitValue c = none) : c ∉ decimal n :=
  not_mem_text hc fun d hd => by have := lt_of_mem_plain (by omega : 1 < 10) hd; omega

theorem not_mem_hex {c : Char} (hc : digitValue c = none) : c ∉ hex n :=
  not_mem_text hc fun d hd => lt_of_mem_fixed (by omega) hd

namespace NewLineage

variable {l l' : NewLineage}

theorem not_mem_id {c : Char} (hc : digitValue c = none) : c ∉ l.id := by
  intro h
  obtain ⟨b, -, hb⟩ := mem_flatMap.mp h
  exact not_mem_text hc (fun d hd => lt_of_mem_fixed (by omega) hd) hb

theorem length_byte {b : UInt8} : (text (fixed 16 2 b.toNat)).length = 2 := by
  have hb : b.toNat < 16 ^ 2 := b.toNat_lt
  rw [text, length_map, length_fixed (by omega) hb]

theorem length_id : l.id.length = 32 := by
  have hall (bs : List UInt8) :
      (bs.flatMap fun b => text (fixed 16 2 b.toNat)).length = 2 * bs.length := by
    induction bs with
    | nil => rfl
    | cons b bs ih =>
      rw [flatMap_cons, length_append, ih, length_byte, length_cons]
      omega
  rw [id, hall, l.length_eq]

theorem id_inj (h : l.id = l'.id) : l = l' := by
  have hall (bs bs' : List UInt8) (hlen : bs.length = bs'.length)
      (h : (bs.flatMap fun b => text (fixed 16 2 b.toNat)) =
        bs'.flatMap fun b => text (fixed 16 2 b.toNat)) : bs = bs' := by
    induction bs generalizing bs' with
    | nil => exact (eq_nil_of_length_eq_zero hlen.symm).symm
    | cons b bs ih =>
      cases bs' with
      | nil => cases hlen
      | cons b' bs' =>
        obtain ⟨hb, hrest⟩ := append_inj h (length_byte.trans length_byte.symm)
        rw [ih bs' (Nat.succ.inj hlen) hrest,
          UInt8.toNat_inj.mp (text_fixed_inj (by omega) (by omega) hb)]
  have hbytes := hall l.bytes l'.bytes (l.length_eq.trans l'.length_eq.symm) h
  cases l
  cases l'
  cases hbytes
  rfl

theorem id_ne_nil (l : NewLineage) : l.id ≠ [] := by
  rw [ne_eq, ← length_eq_zero_iff, length_id]
  omega

theorem slash_not_mem (l : NewLineage) : '/' ∉ l.id := not_mem_id (by decide)

end NewLineage

theorem dropPrefix?_append_self (p s : Text) : (p ++ s).dropPrefix? p = some s :=
  List.dropPrefix?_append_of_beq s (beq_self_eq_true p)

theorem trimFile_append (kind body : Text) : trimFile kind (kind ++ (body ++ dotLtx)) = body := by
  have hsuffix : (body ++ dotLtx).dropSuffix? dotLtx = some body :=
    List.dropSuffix?_eq_some_iff.mpr ⟨_, rfl, beq_self_eq_true _⟩
  simp only [trimFile, dropPrefix?_append_self, Option.getD_some, hsuffix]

theorem isFile_append (kind body : Text) : (kind.isPrefixOf (kind ++ (body ++ dotLtx)) &&
      dotLtx.isSuffixOf (kind ++ (body ++ dotLtx))) = true := by
  rw [Bool.and_eq_true, isPrefixOf_iff_prefix, isSuffixOf_iff_suffix, ← append_assoc]
  exact ⟨⟨body ++ dotLtx, (append_assoc ..).symm⟩, suffix_append ..⟩

/-! ## Members -/

inductive Member where
  | snapshot (epoch txid : UInt64)
  | segment (epoch minTXID maxTXID : UInt64)
  deriving DecidableEq

namespace Member

def key (lineage : Text) : Member → Text
  | snapshot epoch txid => snapshotKey lineage epoch txid
  | segment epoch minTXID maxTXID => segmentKey lineage epoch minTXID maxTXID

def epoch : Member → UInt64
  | snapshot epoch _ => epoch
  | segment epoch _ _ => epoch

def isSnapshot : Member → Bool
  | snapshot .. => true
  | segment .. => false

def minTXID : Member → UInt64
  | snapshot .. => 0
  | segment _ minTXID _ => minTXID

def maxTXID : Member → UInt64
  | snapshot _ txid => txid
  | segment _ _ maxTXID => maxTXID

def file : Member → Text
  | snapshot _ txid => snapshotDash ++ (hex txid ++ dotLtx)
  | segment _ minTXID maxTXID =>
    segmentDash ++ (hex maxTXID ++ '-' :: (hex minTXID ++ dotLtx))

variable {m m' : Member} {lineage : Text} {l l' : NewLineage}

theorem file_snapshot {epoch txid : UInt64} : (snapshot epoch txid).file =
    snapshotDash ++ (hex txid ++ dotLtx) := rfl

theorem file_segment {epoch min max : UInt64} : (segment epoch min max).file =
    segmentDash ++ ((hex max ++ '-' :: hex min) ++ dotLtx) := by
  rw [append_assoc, cons_append]
  rfl

theorem key_eq : m.key lineage =
    dataDir ++ (lineage ++ '/' :: (decimal m.epoch ++ '/' :: m.file)) := by
  cases m <;> rfl

theorem ext (hkind : m.isSnapshot = m'.isSnapshot) (hepoch : m.epoch = m'.epoch)
    (hmin : m.minTXID = m'.minTXID) (hmax : m.maxTXID = m'.maxTXID) : m = m' := by
  cases m with
  | snapshot epoch txid =>
    cases m' with
    | snapshot epoch' txid' =>
      cases hepoch
      cases hmax
      rfl
    | segment epoch' min' max' => cases hkind
  | segment epoch min max =>
    cases m' with
    | snapshot epoch' txid' => cases hkind
    | segment epoch' min' max' =>
      cases hepoch
      cases hmin
      cases hmax
      rfl

theorem parseFile_file {key : Text} : parseFile key m.epoch.toNat m.file =
    some ⟨key, m.isSnapshot, m.minTXID.toNat, m.maxTXID.toNat, m.epoch.toNat⟩ := by
  cases m with
  | snapshot epoch txid =>
    rw [file_snapshot]
    refine (if_pos (isFile_append snapshotDash (hex txid))).trans ?_
    rw [trimFile_append, parseUint_hex]
    rfl
  | segment epoch min max =>
    have hdash : digitValue '-' = none := by decide
    have hkind : (snapshotDash.isPrefixOf
        (segmentDash ++ ((hex max ++ '-' :: hex min) ++ dotLtx)) &&
        dotLtx.isSuffixOf (segmentDash ++ ((hex max ++ '-' :: hex min) ++ dotLtx))) = false := by
      rw [Bool.and_eq_false_iff]
      exact .inl rfl
    rw [file_segment]
    refine (if_neg (Bool.not_eq_true _ ▸ hkind)).trans ?_
    refine (if_pos (isFile_append segmentDash (hex max ++ '-' :: hex min))).trans ?_
    rw [trimFile_append,
      splitOn_append_cons_self_of_not_mem (not_mem_hex hdash),
      splitOn_eq_singleton (not_mem_hex hdash)]
    simp only [parseUint_hex]
    rfl

theorem slash_not_mem_file : '/' ∉ m.file := by
  have hslash : digitValue '/' = none := by decide
  cases m with
  | snapshot epoch txid =>
    rw [file_snapshot, mem_append, mem_append, not_or, not_or]
    exact ⟨by decide, not_mem_hex hslash, by decide⟩
  | segment epoch min max =>
    rw [file_segment, mem_append, mem_append, mem_append, mem_cons, not_or, not_or, not_or, not_or]
    exact ⟨by decide, ⟨not_mem_hex hslash, by decide, not_mem_hex hslash⟩, by decide⟩

theorem parse_key (hne : lineage ≠ []) (hslash : '/' ∉ lineage) : parseMemberKey (m.key lineage) =
      some ⟨m.key lineage, m.isSnapshot, m.minTXID.toNat, m.maxTXID.toNat, m.epoch.toNat⟩ := by
  have hdigit : digitValue '/' = none := by decide
  have hsplit : (lineage ++ '/' :: (decimal m.epoch ++ '/' :: m.file)).splitOn '/' =
      [lineage, decimal m.epoch, m.file] := by
    rw [splitOn_append_cons_self_of_not_mem hslash,
      splitOn_append_cons_self_of_not_mem (not_mem_decimal hdigit),
      splitOn_eq_singleton slash_not_mem_file]
  rw [parseMemberKey]
  nth_rewrite 1 [key_eq]
  simp only [dropPrefix?_append_self, hsplit, if_neg hne, parseUint_decimal, parseFile_file]

theorem key_inj (h : m.key l.id = m'.key l'.id) : l = l' ∧ m = m' := by
  have hparse := congrArg parseMemberKey h
  rw [parse_key l.id_ne_nil l.slash_not_mem, parse_key l'.id_ne_nil l'.slash_not_mem,
    Option.some.injEq, ChainMember.mk.injEq] at hparse
  obtain ⟨-, hkind, hmin, hmax, hepoch⟩ := hparse
  rw [key_eq, key_eq] at h
  have hid := (append_inj (append_cancel_left h)
    (NewLineage.length_id.trans NewLineage.length_id.symm)).1
  exact ⟨NewLineage.id_inj hid, ext hkind (UInt64.toNat_inj.mp hepoch) (UInt64.toNat_inj.mp hmin)
    (UInt64.toNat_inj.mp hmax)⟩

theorem prefix_key (h : lineagePrefix l'.id <+: m.key l.id) : l' = l := by
  obtain ⟨rest, hrest⟩ := h
  rw [key_eq, lineagePrefix, append_assoc, append_assoc] at hrest
  exact NewLineage.id_inj (append_inj (append_cancel_left hrest)
    (NewLineage.length_id.trans NewLineage.length_id.symm)).1

theorem file_lt_file (hkind : m.isSnapshot = m'.isSnapshot) : m.file < m'.file ↔
    m.maxTXID < m'.maxTXID ∨ m.maxTXID = m'.maxTXID ∧ m.minTXID < m'.minTXID := by
  have hlen {n n' : UInt64} : (hex n).length = (hex n').length := length_hex.trans length_hex.symm
  have hext : ¬ dotLtx < dotLtx := List.lt_irrefl _
  cases m with
  | snapshot epoch txid =>
    cases m' with
    | segment epoch' min' max' => cases hkind
    | snapshot epoch' txid' =>
      have hmin : ¬ (0 : UInt64) < 0 := by decide
      rw [file_snapshot, file_snapshot, append_left_lt_iff, append_lt_append_iff hlen, hex_lt_hex]
      exact or_congr_right ⟨fun h => absurd h.2 hext, fun h => absurd h.2 hmin⟩
  | segment epoch min max =>
    cases m' with
    | snapshot epoch' txid' => cases hkind
    | segment epoch' min' max' =>
      have hrange : hex max ++ '-' :: hex min < hex max' ++ '-' :: hex min' ↔
          max < max' ∨ max = max' ∧ min < min' := by
        rw [append_lt_append_iff hlen, hex_lt_hex, hex_inj, List.cons_lt_cons_iff, hex_lt_hex]
        refine or_congr_right (and_congr_right fun _ => ?_)
        exact ⟨fun h => h.elim (fun h => absurd h (by decide)) And.right, fun h => .inr ⟨rfl, h⟩⟩
      have hlen' : (hex max ++ '-' :: hex min).length = (hex max' ++ '-' :: hex min').length := by
        rw [List.length_append, List.length_append, List.length_cons, List.length_cons, length_hex,
          length_hex, length_hex, length_hex]
      rw [file_segment, file_segment, append_left_lt_iff, append_lt_append_iff hlen', hrange]
      exact ⟨fun h => h.elim (fun h => h) fun h => absurd h.2 hext, fun h => .inl h⟩

theorem key_lt_key (hepoch : m.epoch = m'.epoch) (hkind : m.isSnapshot = m'.isSnapshot) :
    m.key lineage < m'.key lineage ↔
      m.maxTXID < m'.maxTXID ∨ m.maxTXID = m'.maxTXID ∧ m.minTXID < m'.minTXID := by
  rw [key_eq, key_eq, hepoch, append_left_lt_iff, append_left_lt_iff, cons_lt_cons_iff,
    append_left_lt_iff, cons_lt_cons_iff, file_lt_file hkind]
  simp

end Member

/-- A base pointer is no member: its key has a part less. -/
theorem parse_baseKey (hslash : '/' ∉ lineage) : parseMemberKey (baseKey lineage) = none := by
  have hsplit : (lineage ++ '/' :: baseJson).splitOn '/' = [lineage, baseJson] := by
    rw [splitOn_append_cons_self_of_not_mem hslash, splitOn_eq_singleton (by decide)]
  rw [parseMemberKey, baseKey]
  simp only [dropPrefix?_append_self, hsplit]

/-- The keys of members of minted lineages are a code. -/
theorem memberKey_code : (∀ (l : NewLineage) (m : Member), parseMemberKey (m.key l.id) =
      some ⟨m.key l.id, m.isSnapshot, m.minTXID.toNat, m.maxTXID.toNat, m.epoch.toNat⟩) ∧
    (∀ (l l' : NewLineage) (m m' : Member), m.key l.id = m'.key l'.id → l = l' ∧ m = m') ∧
    (∀ (l l' : NewLineage) (m : Member), l ≠ l' → ¬ lineagePrefix l'.id <+: m.key l.id) ∧
    (∀ l : NewLineage, parseMemberKey (baseKey l.id) = none) ∧
    ∀ (l : NewLineage) (m m' : Member), m.epoch = m'.epoch → m.isSnapshot = m'.isSnapshot →
      (m.key l.id < m'.key l.id ↔
        m.maxTXID < m'.maxTXID ∨ m.maxTXID = m'.maxTXID ∧ m.minTXID < m'.minTXID) := by
  refine ⟨fun l m => ?_, fun l l' m m' h => ?_, fun l l' m hne h => ?_, fun l => ?_,
    fun l m m' hepoch hkind => ?_⟩
  · exact Member.parse_key l.id_ne_nil l.slash_not_mem
  · exact Member.key_inj h
  · exact hne (Member.prefix_key h).symm
  · exact parse_baseKey l.slash_not_mem
  · exact Member.key_lt_key hepoch hkind

end Offshoot.Keys
