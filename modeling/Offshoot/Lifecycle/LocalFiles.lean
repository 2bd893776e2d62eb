import Mathlib.Data.List.Basic
import Mathlib.Logic.Function.Basic
import Mathlib.Logic.Relation

/-!
# The local files of a destroyed branch

The end of `Destroy` in `internal/ops/gc.go`: the ref goes first, then the files of the branch, one
after another and by name.  As soon as the ref is gone the branch can be created anew and checked
out, by `CheckoutProven` and `CheckoutAt`, into the same names.  Every remove, rename and write is a
step, and may fail.  A file carries the branch it was materialized for: `0` is the destroyed one,
and those created after it count up.
-/

namespace Offshoot.LocalFiles

open Function (update update_self update_of_ne)

inductive File
  | checkout
  | wal
  | shm
  | sum
  | shadow
  | shadowTmp
  | cache (checkpoint : String)
  | lastUsed (checkpoint : String)
  deriving DecidableEq

def File.own : File → Bool
  | .checkout => true
  | .sum => true
  | .shadow => true
  | .cache _ => true
  | _ => false

abbrev Files := File → Option Nat

/-! ## Checkouts -/

/-- Where a checkout or a read-only checkout of a branch is. -/
inductive At
  | place
  | stamp
  -- `refreshShadow`
  | unlink
  | clone
  | rename
  | unclone
  -- `setSidecarShadow`, which reads the sidecar and replaces it
  | record (on : Bool)
  | rewrite (on : Bool) (branch : Nat)
  -- the removes of `dropShadow`
  | drop
  | dropTmp
  | placeAt (checkpoint : String)

/-- The file that is removed, and what comes after whether it was or not. -/
def At.removes : At → Option (File × Option At)
  | .unlink => some (.shadowTmp, some .clone)
  | .unclone => some (.shadowTmp, some (.record false))
  | .drop => some (.shadow, some .dropTmp)
  | .dropTmp => some (.shadowTmp, none)
  | _ => none

/-- What comes after `setSidecarShadow`. -/
def At.recorded (on ok : Bool) : Option At :=
  if on then if ok then none else some (.record false) else some .drop

/-- What one step of a checkout of `branch` makes of the files, and where the checkout is then. -/
inductive Next (branch : Nat) (files : Files) : At → Files → Option At → Prop
  | place : Next branch files .place (update files .checkout (some branch)) (some .stamp)
  | notPlaced : Next branch files .place files none
  | stamp (hthere : files .checkout ≠ none) :
      Next branch files .stamp (update files .sum (some branch)) (some .unlink)
  | notStamped : Next branch files .stamp files none
  | removed (pc : At) (f : File) (pc' : Option At) (h : pc.removes = some (f, pc')) :
      Next branch files pc (update files f none) pc'
  | notRemoved (pc : At) (f : File) (pc' : Option At) (h : pc.removes = some (f, pc')) :
      Next branch files pc files pc'
  | clone (hthere : files .checkout ≠ none) :
      Next branch files .clone (update files .shadowTmp (some branch)) (some .rename)
  | notCloned : Next branch files .clone files (some (.record false))
  | rename (clone : Nat) (hthere : files .shadowTmp = some clone) :
      Next branch files .rename (update (update files .shadow (some clone)) .shadowTmp none)
        (some (.record true))
  | notRenamed : Next branch files .rename files (some .unclone)
  | read (on : Bool) (stamped : Nat) (hthere : files .sum = some stamped) :
      Next branch files (.record on) files (some (.rewrite on stamped))
  -- No sidecar that can be read, or one that says so already.
  | notRead (on ok : Bool) : Next branch files (.record on) files (At.recorded on ok)
  | rewrite (on : Bool) (stamped : Nat) :
      Next branch files (.rewrite on stamped) (update files .sum (some stamped))
        (At.recorded on true)
  | notRewritten (on : Bool) (stamped : Nat) :
      Next branch files (.rewrite on stamped) files (At.recorded on false)
  | placeAt (cp : String) :
      Next branch files (.placeAt cp) (update files (.cache cp) (some branch)) none
  | notPlacedAt (cp : String) : Next branch files (.placeAt cp) files none

/-! ## The destroy and what runs beside it -/

inductive Destroy
  /-- Holds its claim on the ref. -/
  | claimed
  /-- Has these files to remove, and has listed the read-only files or not. -/
  | removing (listed : Bool) (rest : List File)
  | returned

structure State where
  ref : Option Nat
  next : Nat
  files : Files
  destroy : Destroy
  procs : Nat → Option (Nat × At)
  removed : List (File × Nat)

namespace State

def setFile (s : State) (f : File) (v : Option Nat) : State :=
  { s with files := update s.files f v }

def setProc (s : State) (p : Nat) (v : Option (Nat × At)) : State :=
  { s with procs := update s.procs p v }

def remove (s : State) (f : File) : State :=
  { s.setFile f none with
    removed := (s.files f).toList.map (fun branch => (f, branch)) ++ s.removed }

/-- The destroyed branch with the files it has, the claim on it, and nothing else under way. -/
def init (files : Files) : State where
  ref := some 0
  next := 1
  files := files
  destroy := .claimed
  procs := fun _ => none
  removed := []

end State

def names : List File := [.checkout, .wal, .shm, .sum, .shadow, .shadowTmp]

/-- A step of the destroy, of a create or fork, of a checkout of a new branch, or of a
connection. -/
inductive Step (s : State) : State → Prop
  | deleteRef (h : s.destroy = .claimed) :
      Step s { s with ref := none, destroy := .removing false names }
  | remove (listed : Bool) (f : File) (rest : List File)
      (h : s.destroy = .removing listed (f :: rest)) :
      Step s { s.remove f with destroy := .removing listed rest }
  | notRemoved (listed : Bool) (f : File) (rest : List File)
      (h : s.destroy = .removing listed (f :: rest)) :
      Step s { s with destroy := .removing listed rest }
  -- `filepath.Glob` finds read-only files, where the root has a pattern in it not all.
  | glob (found : List String) (h : s.destroy = .removing false [])
      (hfound : ∀ cp ∈ found, s.files (.cache cp) ≠ none) :
      Step s { s with
        destroy := .removing true (found.flatMap fun cp => [.cache cp, .lastUsed cp]) }
  | finish (h : s.destroy = .removing true []) : Step s { s with destroy := .returned }
  | recreate (href : s.ref = none) : Step s { s with ref := some s.next, next := s.next + 1 }
  | checkout (p branch : Nat) (pc : At) (hidle : s.procs p = none) (href : s.ref = some branch)
      (hnew : branch ≠ 0) (hpc : pc = .place ∨ ∃ cp, pc = .placeAt cp) :
      Step s (s.setProc p (some (branch, pc)))
  | work (p branch : Nat) (pc : At) (files : Files) (pc' : Option At)
      (h : s.procs p = some (branch, pc)) (hnext : Next branch s.files pc files pc') :
      Step s ({ s with files := files }.setProc p (pc'.map fun pc => (branch, pc)))
  -- A read-only file that is there is served as it is.
  | hit (cp : String) (branch : Nat) (h : s.files (.cache cp) = some branch) :
      Step s (s.setFile (.lastUsed cp) (some branch))
  | connect (branch : Nat) (h : s.files .checkout = some branch) :
      Step s ((s.setFile .wal (some branch)).setFile .shm (some branch))

structure Orderly (waits : Bool) (s s' : State) : Prop where
  /-- The destroy goes on to the next file when this one is gone. -/
  removes : ∀ listed f rest, s.destroy = .removing listed (f :: rest) →
    s'.destroy = .removing listed rest → s'.files f = none
  /-- It finds all read-only files. -/
  globs : ∀ rest, s.destroy = .removing false [] → s'.destroy = .removing true rest →
    ∀ cp, s.files (.cache cp) ≠ none → .cache cp ∈ rest
  /-- If this is asked for, the branch is created anew only when the destroy has returned. -/
  waits : waits = true → s.ref = none → s'.ref ≠ none → s.destroy = .returned

/-- Every state an orderly destroy and what runs beside it can lead to, whatever files the
destroyed branch had. -/
def Reach (waits : Bool) (s : State) : Prop :=
  ∃ files : Files, (∀ f branch, files f = some branch → branch = 0) ∧
    Relation.ReflTransGen (fun s s' => Step s s' ∧ Orderly waits s s') (.init files) s

/-- The destroy removes nothing of another branch, and when it has returned and there is no new
branch, nothing of the old one is left. -/
structure OnlyOwn (s : State) : Prop where
  removed : ∀ f branch, (f, branch) ∈ s.removed → f.own = true → branch = 0
  gone : s.destroy = .returned → s.ref = none → ∀ f, f.own = true → s.files f = none

/-! ## What the checkouts keep -/

/-- No file that counts, and no clone, is an old one that was not before. -/
def Renewed (files files' : Files) : Prop :=
  ∀ f, f.own = true ∨ f = .shadowTmp → files' f = some 0 → files f = some 0

theorem Renewed.refl (files : Files) : Renewed files files := fun _ _ => id

variable {files : Files} {v : Option Nat}

theorem Renewed.update (f : File) (hv : v ≠ some 0) : Renewed files (update files f v) := by
  intro g _ hg
  by_cases heq : g = f
  · subst heq
    rw [update_self] at hg
    exact absurd hg hv
  · rwa [update_of_ne heq] at hg

variable {f : File}

theorem Renewed.update_other
    (hf : f.own = false ∧ f ≠ .shadowTmp) : Renewed files (Function.update files f v) := by
  intro g hg h0
  have hne : g ≠ f := by
    rintro rfl
    rw [hf.1] at hg
    exact hg.elim (by simp) hf.2
  rwa [update_of_ne hne] at h0

variable {files' : Files}

theorem Renewed.trans {files'' : Files} (h : Renewed files files')
    (h' : Renewed files' files'') : Renewed files files'' :=
  fun f hf h0 => h f hf (h' f hf h0)

/-- What a checkout relies on: it has stamped the sidecar and cloned the checkout itself. -/
def At.Fresh (files : Files) : At → Prop
  | .place => True
  | .stamp => True
  | .placeAt _ => True
  | .rename => files .sum ≠ some 0 ∧ files .shadowTmp ≠ some 0
  | .rewrite _ stamped => files .sum ≠ some 0 ∧ stamped ≠ 0
  | _ => files .sum ≠ some 0

variable {pc : At}

theorem At.Fresh.mono (h : pc.Fresh files) (hr : Renewed files files') : pc.Fresh files' := by
  have hsum : files .sum ≠ some 0 → files' .sum ≠ some 0 := mt (hr .sum (.inl rfl))
  cases pc with
  | place => trivial
  | stamp => trivial
  | placeAt _ => trivial
  | rename => exact ⟨hsum h.1, mt (hr .shadowTmp (.inr rfl)) h.2⟩
  | rewrite _ _ => exact ⟨hsum h.1, h.2⟩
  | _ => exact hsum h

theorem At.Fresh.recorded {on ok : Bool} (h : files .sum ≠ some 0) :
    ∀ pc ∈ At.recorded on ok, pc.Fresh files := by
  intro pc hpc
  cases on <;> cases ok <;> cases hpc <;> exact h

/-- A checkout brings nothing of the old branch back. -/
theorem Next.fresh {branch : Nat} {pc' : Option At} (h : Next branch files pc files' pc')
    (hnew : branch ≠ 0) (hpc : pc.Fresh files) :
    Renewed files files' ∧ ∀ pc₁ ∈ pc', pc₁.Fresh files' := by
  have hbranch : some branch ≠ some 0 := fun heq => hnew (Option.some.inj heq)
  have hnone : (none : Option Nat) ≠ some 0 := by simp
  cases h with
  | place => exact ⟨.update _ hbranch, fun _ h => by cases h; trivial⟩
  | stamp _ =>
    refine ⟨.update _ hbranch, fun _ h => ?_⟩
    cases h
    show update files .sum (some branch) .sum ≠ some 0
    rwa [update_self]
  | removed _ f _ h =>
    refine ⟨.update _ hnone, fun pc₁ h₁ => ?_⟩
    have hsum : pc₁.Fresh files := by
      cases pc <;> cases h <;> cases h₁ <;> exact hpc
    exact hsum.mono (.update _ hnone)
  | notRemoved _ f _ h =>
    refine ⟨.refl _, fun pc₁ h₁ => ?_⟩
    cases pc <;> cases h <;> cases h₁ <;> exact hpc
  | clone _ =>
    have hr : Renewed files (update files .shadowTmp (some branch)) := .update _ hbranch
    refine ⟨hr, fun _ h => ?_⟩
    cases h
    refine ⟨mt (hr .sum (.inl rfl)) hpc, ?_⟩
    rwa [update_self]
  | rename clone hthere =>
    have hclone : some clone ≠ some 0 := hthere ▸ hpc.2
    have hr : Renewed files (update (update files .shadow (some clone)) .shadowTmp none) :=
      (Renewed.update _ hclone).trans (.update _ hnone)
    exact ⟨hr, fun _ h => by cases h; exact mt (hr .sum (.inl rfl)) hpc.1⟩
  | read on stamped hthere =>
    refine ⟨.refl _, fun _ h => ?_⟩
    cases h
    exact ⟨hpc, fun heq => hpc (heq ▸ hthere)⟩
  | notRead on ok => exact ⟨.refl _, At.Fresh.recorded hpc⟩
  | rewrite on stamped =>
    have hr : Renewed files (update files .sum (some stamped)) :=
      .update _ fun heq => hpc.2 (Option.some.inj heq)
    exact ⟨hr, At.Fresh.recorded (mt (hr .sum (.inl rfl)) hpc.1)⟩
  | notRewritten on stamped => exact ⟨.refl _, At.Fresh.recorded hpc.1⟩
  | placeAt cp => exact ⟨.update _ hbranch, by simp⟩
  | notCloned => exact ⟨.refl _, fun _ h => by cases h; exact hpc⟩
  | notRenamed => exact ⟨.refl _, fun _ h => by cases h; exact hpc.1⟩
  | _ => exact ⟨.refl _, by simp⟩

/-! ## What every step keeps -/

structure Ok (s : State) : Prop where
  /-- Checkouts are of new branches. -/
  procs : ∀ p branch pc, s.procs p = some (branch, pc) → branch ≠ 0 ∧ pc.Fresh s.files
  /-- Before a new branch there are no checkouts and no files but the old ones. -/
  idle : s.next = 1 → ∀ p, s.procs p = none
  old : s.next = 1 → ∀ f branch, s.files f = some branch → branch = 0
  next_pos : 1 ≤ s.next
  ref : s.ref = none → s.next = 1
  ref_lt : ∀ branch, s.ref = some branch → branch < s.next
  claimed : s.destroy = .claimed → s.next = 1 ∧ s.ref ≠ none

theorem Ok.init (h : ∀ f branch, files f = some branch → branch = 0) : Ok (.init files) where
  procs := fun _ _ _ hb => by cases hb
  idle := fun _ _ => rfl
  old := fun _ => h
  next_pos := Nat.le_refl 1
  ref := fun hr => by cases hr
  ref_lt := fun branch hb => by
    cases hb
    exact Nat.zero_lt_one
  claimed := fun _ => ⟨rfl, fun hnone => by cases hnone⟩

variable {s s' : State} {waits : Bool}

theorem Ok.setFile (h : Ok s) (hr : Renewed s.files (update s.files f v))
    (hold : s.next = 1 → ∀ branch, v = some branch → branch = 0) : Ok (s.setFile f v) :=
  { h with
    procs := fun p branch pc hp => ⟨(h.procs p branch pc hp).1, (h.procs p branch pc hp).2.mono hr⟩
    old := by
      intro hnext g branch hg
      change update s.files f v g = some branch at hg
      by_cases heq : g = f
      · subst heq
        rw [update_self] at hg
        exact hold hnext branch hg
      · rw [update_of_ne heq] at hg
        exact h.old hnext g branch hg }

theorem Ok.setProc (h : Ok s) {p : Nat} {v : Option (Nat × At)} (hnext : s.next ≠ 1)
    (hv : ∀ branch pc, v = some (branch, pc) → branch ≠ 0 ∧ pc.Fresh s.files) :
    Ok (s.setProc p v) :=
  { h with
    procs := by
      intro q branch pc hq
      change update s.procs p v q = some (branch, pc) at hq
      by_cases heq : q = p
      · subst heq
        rw [update_self] at hq
        exact hv branch pc hq
      · rw [update_of_ne heq] at hq
        exact h.procs q branch pc hq
    idle := fun hone => absurd hone hnext }

variable {d : Destroy}

theorem Ok.goOn (h : Ok s) (hd : d ≠ .claimed) : Ok { s with destroy := d } :=
  { h with claimed := fun heq => absurd heq hd }

theorem Ok.working (h : Ok s) {p branch : Nat} (hp : s.procs p = some (branch, pc)) :
    s.next ≠ 1 := by
  intro hnext
  rw [h.idle hnext p] at hp
  cases hp

theorem Renewed.remove (s : State) (f : File) : Renewed s.files (s.remove f).files :=
  .update f (by simp)

theorem Ok.step (h : Ok s) (hstep : Step s s') : Ok s' := by
  cases hstep with
  | deleteRef hd =>
    exact { h with
      ref := fun _ => (h.claimed hd).1
      ref_lt := by simp
      claimed := by simp }
  | remove listed f rest hd =>
    have hset : Ok (s.setFile f none) := h.setFile (.remove s f) (by simp)
    exact { hset with claimed := by simp }
  | notRemoved listed f rest hd => exact h.goOn (by simp)
  | glob found hd hfound => exact h.goOn (by simp)
  | finish hd => exact h.goOn (by simp)
  | recreate href =>
    have hlater : s.next + 1 ≠ 1 := by
      have := h.next_pos
      omega
    exact { h with
      idle := fun hone => absurd hone hlater
      old := fun hone => absurd hone hlater
      next_pos := Nat.le_add_left 1 s.next
      ref := by simp
      ref_lt := fun branch hb => by
        cases hb
        exact Nat.lt_succ_self _
      claimed := fun hd => absurd href (h.claimed hd).2 }
  | checkout p branch pc hidle href hnew hpc =>
    have hlt := h.ref_lt branch href
    refine h.setProc (by omega) fun branch' pc' heq => ?_
    cases heq
    refine ⟨hnew, ?_⟩
    obtain rfl | ⟨cp, rfl⟩ := hpc <;> trivial
  | work p branch pc files pc' hp hnext =>
    obtain ⟨hnew, hpc⟩ := h.procs p branch pc hp
    obtain ⟨hr, hpc'⟩ := hnext.fresh hnew hpc
    have hworking := h.working hp
    have hfiles : Ok { s with files := files } :=
      { h with
        procs := fun q b pc hq => ⟨(h.procs q b pc hq).1, (h.procs q b pc hq).2.mono hr⟩
        old := fun hone => absurd hone hworking }
    refine hfiles.setProc hworking fun branch' pc₁ heq => ?_
    obtain ⟨pc₂, hpc₂, hpair⟩ := Option.map_eq_some_iff.mp heq
    cases hpair
    exact ⟨hnew, hpc' _ hpc₂⟩
  | hit cp branch hf =>
    refine h.setFile (.update_other ⟨rfl, by simp⟩) fun hnext branch' hb => ?_
    exact h.old hnext _ _ (hb ▸ hf)
  | connect branch hf =>
    have hold (hnext : s.next = 1) (branch' : Nat) (hb : some branch = some branch') :
        branch' = 0 := h.old hnext _ _ (hb ▸ hf)
    have hwal : Ok (s.setFile .wal (some branch)) :=
      h.setFile (.update_other ⟨rfl, by simp⟩) hold
    exact hwal.setFile (.update_other ⟨rfl, by simp⟩) hold

/-! ## What a thorough destroy leaves -/

/-- The destroy is through with a file that counts. -/
def Swept (f : File) : Destroy → Prop
  | .claimed => False
  | .removing listed rest => (f ∈ names ∨ listed = true) ∧ f ∉ rest
  | .returned => True

/-- A file the destroy is through with is not an old one. -/
def Clean (s : State) : Prop := ∀ f, f.own = true → Swept f s.destroy → s.files f ≠ some 0

theorem Clean.goOn (h : Clean s) (hr : Renewed s.files files)
    (hswept : ∀ f, f.own = true → Swept f d → files f = none ∨ Swept f s.destroy) :
    ∀ f, f.own = true → Swept f d → files f ≠ some 0 := by
  intro f hown hs h0
  rcases hswept f hown hs with hnone | hs
  · rw [hnone] at h0
    cases h0
  · exact h f hown hs (hr f (.inl hown) h0)

theorem own_notMem_names (hown : f.own = true) (hnot : f ∉ names) : ∃ cp, f = .cache cp := by
  cases f with
  | cache cp => exact ⟨cp, rfl⟩
  | checkout => exact absurd (by decide) hnot
  | sum => exact absurd (by decide) hnot
  | shadow => exact absurd (by decide) hnot
  | _ => cases hown

theorem Clean.step (h : Clean s) (hok : Ok s) (hstep : Step s s') (ho : Orderly waits s s') :
    Clean s' := by
  -- One file less to go: it is gone, or it was none to go any more.
  have hnext {listed : Bool} {f : File} {rest : List File} {files : Files}
      (hd : s.destroy = .removing listed (f :: rest)) (hgone : files f = none) (g : File)
      (hs : Swept g (.removing listed rest)) : files g = none ∨ Swept g s.destroy := by
    by_cases heq : g = f
    · exact .inl (heq ▸ hgone)
    · rw [hd]
      exact .inr ⟨hs.1, List.not_mem_cons_of_ne_of_not_mem heq hs.2⟩
  cases hstep with
  | deleteRef hd =>
    exact h.goOn (.refl _) fun f _ hs => absurd (hs.1.resolve_right (by simp)) hs.2
  | remove listed f rest hd =>
    exact h.goOn (.remove s f) fun g _ => hnext hd (ho.removes _ _ _ hd rfl) g
  | notRemoved listed f rest hd =>
    exact h.goOn (.refl _) fun g _ => hnext hd (ho.removes _ _ _ hd rfl) g
  | glob found hd hfound =>
    refine h.goOn (.refl _) fun f hown hs => ?_
    by_cases hname : f ∈ names
    · rw [hd]
      exact .inr ⟨.inl hname, List.not_mem_nil⟩
    · obtain ⟨cp, rfl⟩ := own_notMem_names hown hname
      by_contra hnot
      exact hs.2 (ho.globs _ hd rfl cp fun hnone => hnot (.inl hnone))
  | finish hd =>
    refine h.goOn (.refl _) fun f _ _ => .inr ?_
    rw [hd]
    exact ⟨.inr rfl, List.not_mem_nil⟩
  | recreate href => exact h
  | checkout p branch pc hidle href hnew hpc => exact h
  | work p branch pc files pc' hp hnext' =>
    obtain ⟨hnew, hpc⟩ := hok.procs p branch pc hp
    exact h.goOn (hnext'.fresh hnew hpc).1 fun _ _ => .inr
  | hit cp branch hf =>
    exact h.goOn (.update_other ⟨rfl, by simp⟩) fun _ _ => .inr
  | connect branch hf =>
    have hwal : Renewed s.files (update s.files .wal (some branch)) :=
      .update_other ⟨rfl, by simp⟩
    exact h.goOn (hwal.trans (.update_other ⟨rfl, by simp⟩)) fun _ _ => .inr

/-! ## A destroy that ends before the branch is created anew -/

/-- Until the destroy has returned there is no new branch, and what it has removed was old. -/
structure Alone (s : State) : Prop where
  next : s.destroy ≠ .returned → s.next = 1
  removed : ∀ f branch, (f, branch) ∈ s.removed → branch = 0

theorem Alone.goOn (h : Alone s) (hd : s.destroy ≠ .returned) : Alone { s with destroy := d } :=
  ⟨fun _ => h.next hd, h.removed⟩

theorem Alone.step (h : Alone s) (hok : Ok s) (hstep : Step s s') (ho : Orderly true s s') :
    Alone s' := by
  cases hstep with
  | deleteRef hd =>
    refine ⟨fun _ => h.next fun heq => ?_, h.removed⟩
    rw [hd] at heq
    cases heq
  | remove listed f rest hd =>
    have hd' : s.destroy ≠ .returned := fun heq => by rw [hd] at heq; cases heq
    refine ⟨fun _ => h.next hd', fun g branch hg => ?_⟩
    cases List.mem_append.mp hg with
    | inl hnew =>
      obtain ⟨b, hb, heq⟩ := List.mem_map.mp hnew
      cases heq
      exact hok.old (h.next hd') f branch (Option.mem_toList.mp hb)
    | inr hin => exact h.removed g branch hin
  | notRemoved listed f rest hd => exact h.goOn fun heq => by rw [hd] at heq; cases heq
  | glob found hd hfound => exact h.goOn fun heq => by rw [hd] at heq; cases heq
  | finish hd => exact h.goOn fun heq => by rw [hd] at heq; cases heq
  | recreate href =>
    have hreturned := ho.waits rfl href (by simp)
    exact ⟨fun hne => absurd hreturned hne, h.removed⟩
  | _ => exact ⟨h.next, h.removed⟩

theorem Reach.ok_clean (h : Reach waits s) : Ok s ∧ Clean s := by
  obtain ⟨files, hold, hrun⟩ := h
  induction hrun with
  | refl => exact ⟨.init hold, fun _ _ hs => hs.elim⟩
  | tail _ hstep ih => exact ⟨ih.1.step hstep.1, ih.2.step ih.1 hstep.1 hstep.2⟩

theorem Reach.alone (h : Reach true s) : Alone s := by
  obtain ⟨files, hold, hrun⟩ := h
  induction hrun with
  | refl => exact ⟨fun _ => rfl, fun _ _ hin => by cases hin⟩
  | tail hrun hstep ih =>
    have hreach : Reach true _ := ⟨files, hold, hrun⟩
    exact ih.step hreach.ok_clean.1 hstep.1 hstep.2

/-- When the destroy has returned and the branch was not created anew, none of its files is
left. -/
theorem Reach.gone (h : Reach waits s) (hd : s.destroy = .returned) (href : s.ref = none)
    (hown : f.own = true) : s.files f = none := by
  obtain ⟨hok, hclean⟩ := h.ok_clean
  cases hf : s.files f with
  | none => rfl
  | some branch =>
    obtain rfl := hok.old (hok.ref href) f branch hf
    exact absurd hf (hclean f hown (by rw [hd]; trivial))

/-- A destroy whose removes succeed, and which finds the read-only files there are, removes the
files of its own branch, all of them and no others, if the branch is not created anew before it has
returned. -/
theorem destroy_only_own (h : Reach true s) : OnlyOwn s :=
  ⟨fun f branch hin _ => h.alone.removed f branch hin, fun hd href _ hown => h.gone hd href hown⟩

/-! ### A whole destroy, and one with a new branch in it -/

theorem Reach.step (h : Reach waits s) (hstep : Step s s') (ho : Orderly waits s s') :
    Reach waits s' := by
  obtain ⟨files, hold, hrun⟩ := h
  exact ⟨files, hold, hrun.tail ⟨hstep, ho⟩⟩

theorem Reach.aside (h : Reach waits s) (hstep : Step s s') (hd : s'.destroy = s.destroy)
    (href : waits = true → s'.ref = s.ref) : Reach waits s' := by
  refine h.step hstep ⟨fun _ f rest hr hr' => ?_, fun rest hr hr' => ?_, fun hw hnone hne => ?_⟩
  · rw [hd, hr] at hr'
    simp at hr'
  · rw [hd, hr] at hr'
    cases hr'
  · exact absurd ((href hw).trans hnone) hne

theorem Reach.remove (h : Reach waits s) {listed : Bool} {rest : List File}
    (hd : s.destroy = .removing listed (f :: rest)) :
    Reach waits { s.remove f with destroy := .removing listed rest } := by
  refine h.step (.remove listed f rest hd) ⟨fun _ g rest' hr _ => ?_, fun _ hr => ?_,
    fun _ hnone hne => absurd hnone hne⟩
  · rw [hd] at hr
    cases hr
    exact update_self _ _ _
  · rw [hd] at hr
    cases hr

/-- A branch that has been checked out and read at the checkpoint it was forked at. -/
def checkedOut : Files
  | .checkout => some 0
  | .sum => some 0
  | .cache "fork" => some 0
  | _ => none

theorem checkedOut_old (f : File) (branch : Nat) (h : checkedOut f = some branch) : branch = 0 := by
  rw [checkedOut.eq_def] at h
  split at h <;> cases h <;> rfl

theorem checkedOut_cache (cp : String) : checkedOut (.cache cp) ≠ none ↔ cp = "fork" := by
  rw [checkedOut.eq_def]
  split <;> simp_all

theorem reach_deleted (waits : Bool) :
    Reach waits { State.init checkedOut with ref := none, destroy := .removing false names } := by
  refine Reach.step ⟨checkedOut, checkedOut_old, .refl⟩ (.deleteRef rfl) ⟨?_, ?_, ?_⟩
  · exact fun _ _ _ h => by cases h
  · simp
  · simp

/-- The destroy lists the read-only files, removes the one there is, and returns. -/
theorem Reach.finish (h : Reach waits s) (hd : s.destroy = .removing false [])
    (hfiles : ∀ cp, s.files (.cache cp) ≠ none ↔ cp = "fork") :
    Reach waits { (s.remove (.cache "fork")).remove (.lastUsed "fork") with
      destroy := .returned } := by
  have hlisted : Reach waits
      { s with destroy := .removing true [.cache "fork", .lastUsed "fork"] } := by
    refine h.step (.glob ["fork"] hd fun cp hcp => (hfiles cp).mpr (List.mem_singleton.mp hcp))
      ⟨fun _ _ _ hr => ?_, fun rest _ hr cp hcp => ?_, fun _ hnone hne => absurd hnone hne⟩
    · rw [hd] at hr
      cases hr
    · cases hr
      rw [(hfiles cp).mp hcp]
      exact List.mem_cons_self
  have hremoved := (hlisted.remove rfl).remove rfl
  refine hremoved.step (.finish rfl) ⟨?_, ?_, fun _ hnone hne => absurd hnone hne⟩
  · simp
  · simp

theorem destroy_only_own_checkedOut : ∃ s, Reach true s ∧ s.destroy = .returned ∧ s.ref = none ∧
    s.removed = [(.cache "fork", 0), (.sum, 0), (.checkout, 0)] ∧ OnlyOwn s := by
  have hnames := ((((((reach_deleted true).remove rfl).remove rfl).remove rfl).remove rfl).remove
    rfl).remove rfl
  have h := hnames.finish rfl checkedOut_cache
  exact ⟨_, h, rfl, rfl, rfl, destroy_only_own h⟩

/-- The branch is created anew and checked out while the destroy still has the names to go
through, and the first of them is the new checkout by then. -/
theorem destroy_removes_new_checkout : ¬ ∀ s, Reach false s → OnlyOwn s := by
  intro hall
  have hnew := ((reach_deleted false).aside (.recreate rfl) rfl (by simp)).aside
    (.checkout 0 1 .place rfl rfl Nat.one_ne_zero (.inl rfl)) rfl (by simp)
  have hplaced := (hnew.aside (.work 0 1 _ _ _ rfl .place) rfl (by simp)).aside
    (.work 0 1 _ _ _ rfl (.stamp (fun h => by cases h))) rfl (fun h => by cases h)
  have hone := (hall _ (hplaced.remove rfl)).removed .checkout 1 List.mem_cons_self rfl
  cases hone

end Offshoot.LocalFiles
