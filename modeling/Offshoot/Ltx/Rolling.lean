import Offshoot.Lib.XorFold
import Offshoot.Ltx.Checksum

/-!
# The rolling checksum as a word

`internal/ltxio/segment.go`: the rolling checksum is a 64-bit word, the exclusive or of the
page checksums, with its top bit always set.  The page checksum is a given function.  A word
is the digest of the set of pages folded into it, so what is shown of such sets
(`Offshoot.Covers`) holds of the words, and the chains of `Offshoot.applySegments`, whose
checksums are sets, are read back the same with words.
-/

namespace Offshoot.Rolling

open List

variable {lock : Nat}

open XorFold

def checksumFlag : UInt64 := 0x8000000000000000

abbrev Crc (β : Type) := Nat → β → UInt64

section Words

variable {β : Type}

def checksumPage (crc : Crc β) (pgno : Nat) (data : β) : UInt64 := checksumFlag ||| crc pgno data

def updateChecksum (crc : Crc β) (running : UInt64) (pgno : Nat) (oldData newData : Option β) :
    UInt64 :=
  checksumFlag ||| (running ^^^ oldData.elim 0 (checksumPage crc pgno) ^^^
    newData.elim 0 (checksumPage crc pgno))

/-- The loop of `checksumPages`: fold in one page, unless it is the lock page. -/
def checksumNext (crc : Crc β) (lock : Nat) (read : Nat → Option β) (chksum : UInt64)
    (pgno : Nat) : Option UInt64 :=
  if pgno = lock then some chksum
  else (read pgno).map fun data => checksumFlag ||| (chksum ^^^ checksumPage crc pgno data)

/-- The checksum of pages `1` to `nPages`; none if one of them cannot be read. -/
def checksumPages (crc : Crc β) (lock : Nat) (read : Nat → Option β) (nPages : Nat) :
    Option UInt64 :=
  (List.range' 1 nPages).foldlM (checksumNext crc lock read) checksumFlag

/-- What the lock page and the pages past the end hold does not matter. -/
theorem checksumPages_congr {crc : Crc β} {nPages : Nat} {read read' : Nat → Option β}
    (h : ∀ n, n ≠ lock → n ≤ nPages → read n = read' n) :
    checksumPages crc lock read nPages = checksumPages crc lock read' nPages := by
  have hfold (ns : List Nat) (hns : ∀ n ∈ ns, n ≤ nPages) (chksum : UInt64) :
      ns.foldlM (checksumNext crc lock read) chksum =
        ns.foldlM (checksumNext crc lock read') chksum := by
    induction ns generalizing chksum with
    | nil => rfl
    | cons n ns ih =>
      have hnext : checksumNext crc lock read chksum n = checksumNext crc lock read' chksum n := by
        unfold checksumNext
        by_cases hlock : n = lock
        · rw [if_pos hlock, if_pos hlock]
        · rw [if_neg hlock, if_neg hlock, h n hlock (hns n mem_cons_self)]
      rw [foldlM_cons, foldlM_cons, hnext]
      refine bind_congr fun chksum => ih (fun m hm => hns m (mem_cons_of_mem _ hm)) chksum
  refine hfold _ (fun n hn => ?_) checksumFlag
  have := mem_range'_1.mp hn
  omega

end Words

theorem flag_or_xor (a b : UInt64) :
    checksumFlag ||| ((checksumFlag ||| a) ^^^ b) = checksumFlag ||| (a ^^^ b) := by
  rw [← UInt64.toBitVec_inj]
  refine BitVec.eq_of_getLsbD_eq fun i hi => ?_
  simp only [UInt64.toBitVec_or, UInt64.toBitVec_xor, BitVec.getLsbD_or, BitVec.getLsbD_xor]
  cases checksumFlag.toBitVec.getLsbD i <;> simp

variable {pgno : Nat}

theorem updateChecksum_flag {crc : Crc β} {running : UInt64} {oldData newData : Option β} :
    updateChecksum crc (checksumFlag ||| running) pgno oldData newData =
      updateChecksum crc running pgno oldData newData := by
  rw [updateChecksum, updateChecksum, UInt64.xor_assoc, flag_or_xor, UInt64.xor_assoc]

/-! ## Words and sets -/

variable {crc : Crc Bytes}

def digest (crc : Crc Bytes) (c : Checksum) : UInt64 :=
  checksumFlag ||| xorSum (fun p => checksumPage crc p.1 p.2) c

theorem digest_empty : digest crc ∅ = checksumFlag := by
  rw [digest, xorSum_empty, UInt64.or_zero]

theorem xorSum_elim {x : Option Bytes} :
    xorSum (fun p => checksumPage crc p.1 p.2) (x.elim ∅ (Offshoot.checksumPage pgno)) =
      x.elim 0 (checksumPage crc pgno) := by
  cases x with
  | none => exact xorSum_empty
  | some d => exact xorSum_singleton (pgno, d)

variable {c : Checksum}

theorem updateChecksum_digest {oldData newData : Option Bytes} :
    updateChecksum crc (digest crc c) pgno oldData newData =
      digest crc (Offshoot.updateChecksum c pgno oldData newData) := by
  rw [updateChecksum, digest, UInt64.xor_assoc, flag_or_xor, digest, Offshoot.updateChecksum,
    xorSum_symmDiff, xorSum_symmDiff, xorSum_elim, xorSum_elim, UInt64.xor_assoc]

theorem digest_insert {data : Bytes} :
    checksumFlag ||| (digest crc c ^^^ checksumPage crc pgno data) =
      digest crc (Offshoot.updateChecksum c pgno none (some data)) := by
  rw [← updateChecksum_digest, updateChecksum, Option.elim_none, Option.elim_some, UInt64.xor_zero]

/-- What the full fold over the first pages covers. -/
def firstPages (lock n : Nat) (read : Nat → Option Bytes) (m : Nat) : Option Bytes :=
  if m = 0 ∨ m = lock ∨ n < m then none else read m

variable {img : Image}

theorem firstPages_commit {n : Nat} :
    firstPages lock img.commit img.page? n = if n = lock then none else img.page? n := by
  rw [firstPages]
  by_cases hlock : n = lock
  · rw [if_pos (.inr (.inl hlock)), if_pos hlock]
  · rw [if_neg hlock]
    by_cases hn : n = 0 ∨ img.commit < n
    · rw [Image.page?_eq_none.mpr hn, ite_self]
    · rw [if_neg (by omega)]

theorem checksumPages_covers {read : Nat → Option Bytes} (n : Nat)
    (hread : ∀ m, 0 < m → m ≤ n → m ≠ lock → (read m).isSome) :
    ∃ c, checksumPages crc lock read n = some (digest crc c) ∧
      Covers c (firstPages lock n read) := by
  induction n with
  | zero =>
    refine ⟨∅, by rw [digest_empty]; rfl, Covers.empty.congr fun m => ?_⟩
    rw [firstPages, if_pos (by omega)]
  | succ n ih =>
    obtain ⟨c, hsum, hc⟩ := ih fun m h0 hm => hread m h0 (by omega)
    have hstep : checksumPages crc lock read (n + 1) =
        checksumNext crc lock read (digest crc c) (n + 1) := by
      rw [checksumPages, List.range'_1_concat, foldlM_append]
      rw [checksumPages] at hsum
      rw [hsum, add_comm 1 n]
      exact bind_pure (checksumNext crc lock read (digest crc c) (n + 1))
    rw [hstep, checksumNext]
    -- The page that is added covers itself and nothing else.
    have hother {m : Nat} (hm : m ≠ n + 1) :
        firstPages lock n read m = firstPages lock (n + 1) read m := by
      unfold firstPages
      congr 1
      exact propext ⟨by omega, by omega⟩
    by_cases hlock : n + 1 = lock
    · rw [if_pos hlock]
      refine ⟨c, rfl, hc.congr fun m => ?_⟩
      by_cases hm : m = n + 1
      · rw [hm, firstPages, firstPages, if_pos (by omega), if_pos (by omega)]
      · exact hother hm
    · obtain ⟨d, hd⟩ := Option.isSome_iff_exists.mp (hread (n + 1) (by omega) (Nat.le_refl _) hlock)
      have hnone : firstPages lock n read (n + 1) = none := if_pos (by omega)
      have hnew := hc.update (n + 1) (some d)
      rw [hnone] at hnew
      rw [if_neg hlock, hd, Option.map_some, digest_insert]
      refine ⟨_, rfl, hnew.congr fun m => ?_⟩
      by_cases hm : m = n + 1
      · rw [hm, Function.update_self, firstPages, if_neg (by omega), hd]
      · rw [Function.update_of_ne hm]
        exact hother hm

theorem checksumPages_eq {n : Nat} {read : Nat → Option Bytes}
    (hread : ∀ m, 0 < m → m ≤ n → m ≠ lock → (read m).isSome)
    (hc : Covers c (firstPages lock n read)) :
    checksumPages crc lock read n = some (digest crc c) := by
  obtain ⟨c', hsum, hc'⟩ : ∃ c', checksumPages crc lock read n = some (digest crc c') ∧
      Covers c' (firstPages lock n read) := checksumPages_covers n hread
  rw [hsum, hc'.unique hc]

theorem checksumPages_image (hc : Covers c fun n => if n = lock then none else img.page? n) :
    checksumPages crc lock img.page? img.commit = some (digest crc c) :=
  checksumPages_eq (fun _ h0 hm _ => Image.page?_isSome.mpr ⟨h0, hm⟩)
    (hc.congr fun _ => firstPages_commit.symm)

theorem covers_checksumPages {running : UInt64}
    (h : checksumPages crc lock img.page? img.commit = some running) :
    ∃ c, running = digest crc c ∧ Covers c fun n => if n = lock then none else img.page? n := by
  obtain ⟨c, hsum, hc⟩ : ∃ c, checksumPages crc lock img.page? img.commit = some (digest crc c) ∧
      Covers c (firstPages lock img.commit img.page?) :=
    checksumPages_covers img.commit fun _ h0 hm _ => Image.page?_isSome.mpr ⟨h0, hm⟩
  rw [h] at hsum
  exact ⟨c, Option.some.inj hsum, hc.congr fun _ => firstPages_commit⟩

end Offshoot.Rolling
