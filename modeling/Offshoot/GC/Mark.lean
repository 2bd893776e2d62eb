import Offshoot.Store.Ref
import Offshoot.Store.Resolved

/-!
# The reachability mark

Garbage collection marks what the live refs can reach: the members of every
ref's chains at its head and at its checkpoints, and the base objects along its
base spine.  It also notes, per lineage, how far the refs on that lineage have
got, which the sweep uses to leave alone what a writer may be about to commit.

The mark works on a `View`: every ref is read before any lineage is listed, and
each lineage's listing and base object are read once per pass.
-/

namespace Offshoot

open Maps List

variable {κ : Type}
variable {v : View κ} {baseKey : Lineage → κ}

/-- The least head and the least epoch among the refs on a lineage. -/
structure LiveHead where
  txid : Nat
  epoch : Nat
  deriving DecidableEq, Repr

structure Marked (κ : Type) where
  reachable : List κ
  heads : Map Lineage LiveHead

def noteHead (heads : Map Lineage LiveHead) (r : Ref) : Map Lineage LiveHead :=
  match heads.lookup r.lineage with
  | none => heads.insert r.lineage ⟨r.headTXID, r.epoch⟩
  | some h => heads.insert r.lineage ⟨min r.headTXID h.txid, min r.epoch h.epoch⟩

/-- The base objects along a spine: the lineage's own when the spine is not
empty, and each ancestor's but the last. -/
def spineKeys (baseKey : Lineage → κ) (lineage : Lineage) (spine : List Lineage) : List κ :=
  match spine with
  | [] => []
  | _ :: _ => baseKey lineage :: spine.dropLast.map baseKey

def markChains (v : View κ) (lineage : Lineage) : List Nat → Except (ChainErr κ) (List κ)
  | [] => .ok []
  | t :: ts =>
    match chain v lineage t with
    | .error e => .error e
    | .ok members => (markChains v lineage ts).map (members.map (·.key) ++ ·)

def markRef (v : View κ) (baseKey : Lineage → κ) (acc : Marked κ) (r : Ref) :
    Except (ChainErr κ) (Marked κ) :=
  match baseSpine v r.lineage with
  | .error e => .error e
  | .ok spine =>
    match markChains v r.lineage r.txids with
    | .error e => .error e
    | .ok keys => .ok
        ⟨acc.reachable ++ (spineKeys baseKey r.lineage spine ++ keys), noteHead acc.heads r⟩

/-- The mark over the refs read at its start.  Any resolution error fails it. -/
def reachableObjectsAndHeads (v : View κ) (baseKey : Lineage → κ) :
    Marked κ → List Ref → Except (ChainErr κ) (Marked κ)
  | acc, [] => .ok acc
  | acc, r :: refs =>
    match markRef v baseKey acc r with
    | .error e => .error e
    | .ok acc => reachableObjectsAndHeads v baseKey acc refs

def Marked.empty : Marked κ := ⟨[], ∅⟩

/-! ## What a mark contains -/

variable {l : Lineage}

theorem mem_markChains {ts : List Nat} {keys : List κ} (h : markChains v l ts = .ok keys) {t : Nat}
    (ht : t ∈ ts) : ∃ c, chain v l t = .ok c ∧ ∀ m ∈ c, m.key ∈ keys := by
  induction ts generalizing keys with
  | nil => simp at ht
  | cons u ts ih =>
    rw [markChains] at h
    split at h
    · cases h
    rename_i c hc
    cases hrest : markChains v l ts with
    | error e => simp [hrest, Except.map] at h
    | ok rest =>
      obtain rfl : c.map (·.key) ++ rest = keys := by simpa [hrest, Except.map] using h
      rcases mem_cons.mp ht with rfl | ht
      · exact ⟨c, hc, fun m hm => mem_append_left _ (mem_map_of_mem hm)⟩
      · obtain ⟨c', hc', hkeys⟩ := ih hrest ht
        exact ⟨c', hc', fun m hm => mem_append_right _ (hkeys m hm)⟩

structure RefMarked (v : View κ) (baseKey : Lineage → κ) (reachable : List κ) (r : Ref) :
    Prop where
  spine : ∃ spine, baseSpine v r.lineage = .ok spine ∧
    ∀ k ∈ spineKeys baseKey r.lineage spine, k ∈ reachable
  chains : ∀ t ∈ r.txids, ∃ c, chain v r.lineage t = .ok c ∧ ∀ m ∈ c, m.key ∈ reachable

variable {r : Ref}

theorem RefMarked.mono {s s' : List κ} (h : RefMarked v baseKey s r) (hs : s ⊆ s') :
    RefMarked v baseKey s' r := by
  obtain ⟨⟨spine, hspine, hkeys⟩, hchains⟩ := h
  refine ⟨⟨spine, hspine, fun k hk => hs (hkeys k hk)⟩, fun t ht => ?_⟩
  obtain ⟨c, hc, hm⟩ := hchains t ht
  exact ⟨c, hc, fun m hmc => hs (hm m hmc)⟩

theorem markRef_ok {acc acc' : Marked κ} (h : markRef v baseKey acc r = .ok acc') :
    acc.reachable ⊆ acc'.reachable ∧ RefMarked v baseKey acc'.reachable r ∧
      acc'.heads = noteHead acc.heads r := by
  rw [markRef] at h
  split at h
  · cases h
  rename_i spine hspine
  split at h
  · cases h
  rename_i keys hkeys
  cases h
  refine ⟨fun k hk => mem_append_left _ hk, ⟨⟨spine, hspine, fun k hk => ?_⟩, ?_⟩, rfl⟩
  · exact mem_append_right _ (mem_append_left _ hk)
  · intro t ht
    obtain ⟨c, hc, hm⟩ := mem_markChains hkeys ht
    exact ⟨c, hc, fun m hmc => mem_append_right _ (mem_append_right _ (hm m hmc))⟩

theorem reachableObjectsAndHeads_ok {acc marked : Marked κ} {refs : List Ref}
    (h : reachableObjectsAndHeads v baseKey acc refs = .ok marked) :
    acc.reachable ⊆ marked.reachable ∧
      (∀ r ∈ refs, RefMarked v baseKey marked.reachable r) ∧
      marked.heads = refs.foldl noteHead acc.heads := by
  induction refs generalizing acc with
  | nil =>
    cases h
    exact ⟨fun _ hk => hk, by simp, rfl⟩
  | cons r refs ih =>
    rw [reachableObjectsAndHeads] at h
    split at h
    · cases h
    rename_i acc' hacc
    obtain ⟨hsub, hr, hheads⟩ := markRef_ok hacc
    obtain ⟨hsub', hrefs, hheads'⟩ := ih h
    refine ⟨fun k hk => hsub' (hsub hk), fun r' hr' => ?_, by rw [hheads', hheads]; rfl⟩
    rcases mem_cons.mp hr' with rfl | hr'
    · exact hr.mono hsub'
    · exact hrefs r' hr'

/-! ## Removing unreachable objects -/

def View.remove (v : View κ) (baseKey : Lineage → κ) (dead : κ → Bool) : View κ where
  base l := if dead (baseKey l) then .ok none else v.base l
  members l := (v.members l).map (·.filter (!dead ·.key))
  based := v.based
  mem_based := by
    intro l b h
    split at h
    · cases h
    · exact v.mem_based h

theorem spineKeys_subset (baseKey : Lineage → κ) (l l' : Lineage) (spine : List Lineage) :
    spineKeys baseKey l' spine ⊆ spineKeys baseKey l (l' :: spine) := by
  cases spine with
  | nil => simp [spineKeys]
  | cons a spine => simp [spineKeys]

/-- Along a spine every lineage either has no base object or has it marked, and
its base is on the spine again. -/
theorem baseSpineFrom_keys (baseKey : Lineage → κ) {start : Lineage} {fuel : Nat}
    {seen spine : List Lineage} (h : baseSpineFrom v start fuel l seen = .ok spine) {l' : Lineage}
    (hl' : l' ∈ l :: spine) :
    v.base l' = .ok none ∨ ∃ b, v.base l' = .ok (some b) ∧ b.lineage ∈ spine ∧
      baseKey l' ∈ spineKeys baseKey l spine := by
  revert hl'
  refine baseSpineFrom_induction (motive := fun l _ spine => l' ∈ l :: spine →
    v.base l' = .ok none ∨ ∃ b, v.base l' = .ok (some b) ∧ b.lineage ∈ spine ∧
      baseKey l' ∈ spineKeys baseKey l spine) ?stop ?step h
  case stop =>
    intro l seen hbase hl'
    exact .inl (by rwa [mem_singleton.mp hl'])
  case step =>
    intro l seen b rest hbase _ ih hl'
    rcases mem_cons.mp hl' with rfl | hl'
    · exact .inr ⟨b, hbase, mem_cons_self, by simp [spineKeys]⟩
    · rcases ih hl' with hnone | ⟨b', hb', hmem, hkey⟩
      · exact .inl hnone
      · exact .inr ⟨b', hb', mem_cons_of_mem _ hmem, spineKeys_subset _ _ _ _ hkey⟩

theorem winner_filter {members : List (ChainMember κ)} {t : Nat} {m : ChainMember κ}
    (h : winner members t = some m) {p : ChainMember κ → Bool} (hp : p m = true) :
    winner (members.filter p) t = some m := by
  have hcomm : ((members.filter p).filter (·.byTXID)).filter (·.maxTXID = t) =
      ((members.filter (·.byTXID)).filter (·.maxTXID = t)).filter p := by
    simp only [filter_filter]
    exact filter_congr fun x _ => by
      cases p x <;> cases x.byTXID <;> simp
  rw [winner, hcomm]
  exact KeepBest.argmax_filter h hp

theorem Tidy.remove (hv : Tidy v) (baseKey : Lineage → κ) (dead : κ → Bool) :
    Tidy (v.remove baseKey dead) := by
  have hmem : ∀ {l members m}, (v.remove baseKey dead).members l = .ok members → m ∈ members →
      ∃ members', v.members l = .ok members' ∧ m ∈ members' := by
    intro l members m h hm
    cases hl : v.members l with
    | error e => simp [View.remove, hl, Except.map] at h
    | ok members' =>
      obtain rfl : members'.filter (!dead ·.key) = members := by
        simpa [View.remove, hl, Except.map] using h
      exact ⟨members', rfl, (mem_filter.mp hm).1⟩
  constructor
  · intro l members m h hm hs
    obtain ⟨members', hl, hm'⟩ := hmem h hm
    exact hv.single hl hm' hs
  · intro l members m b h hb hm
    obtain ⟨members', hl, hm'⟩ := hmem h hm
    refine hv.above hl ?_ hm'
    simp only [View.remove] at hb
    split at hb
    · cases hb
    · exact hb

theorem baseSpineFrom_transfer {v' : View κ} {S : Lineage → Prop}
    (hclosed : ∀ l b, S l → v.base l = .ok (some b) → S b.lineage)
    (hbase : ∀ l, S l → v'.base l = v.base l) {start : Lineage} {fuel : Nat} {seen : List Lineage}
    (hl : S l) : baseSpineFrom v' start fuel l seen = baseSpineFrom v start fuel l seen := by
  induction fuel generalizing l seen with
  | zero => rfl
  | succ fuel ih =>
    rw [baseSpineFrom, baseSpineFrom, hbase l hl]
    rcases hb : v.base l with e | _ | b
    · rfl
    · rfl
    · simp only [ih (hclosed l b hl hb)]

theorem RefMarked.remove (hv : Tidy v) {reachable : List κ} (h : RefMarked v baseKey reachable r)
    {dead : κ → Bool} (hdead : ∀ k, dead k = true → k ∉ reachable) :
    (∃ spine, baseSpine v r.lineage = .ok spine ∧
      baseSpine (v.remove baseKey dead) r.lineage = .ok spine ∧
      ∀ l ∈ r.lineage :: spine, (v.remove baseKey dead).base l = v.base l) ∧
    ∀ t ∈ r.txids, ∃ c, chain v r.lineage t = .ok c ∧
      chain (v.remove baseKey dead) r.lineage t = .ok c := by
  obtain ⟨⟨spine, hspine, hspineKeys⟩, hchains⟩ := h
  have halive : ∀ {k}, k ∈ reachable → dead k = false := by
    intro k hk
    cases hd : dead k with
    | false => rfl
    | true => exact absurd hk (hdead k hd)
  -- the deletion leaves the base pointers of the whole spine alone
  have hbase : ∀ l, l ∈ r.lineage :: spine → (v.remove baseKey dead).base l = v.base l := by
    intro l hl
    rcases baseSpineFrom_keys baseKey hspine hl with hnone | ⟨b, hb, -, hkey⟩
    · simp [View.remove, hnone]
    · simp [View.remove, halive (hspineKeys _ hkey)]
  have hclosed : ∀ l b, l ∈ r.lineage :: spine → v.base l = .ok (some b) →
      b.lineage ∈ r.lineage :: spine := by
    intro l b hl hb
    rcases baseSpineFrom_keys baseKey hspine hl with hnone | ⟨b', hb', hmem, -⟩
    · rw [hnone] at hb
      cases hb
    · rw [hb', Except.ok.injEq, Option.some.injEq] at hb
      exact mem_cons_of_mem _ (hb ▸ hmem)
  constructor
  · exact ⟨spine, hspine, (baseSpineFrom_transfer hclosed hbase mem_cons_self).trans hspine, hbase⟩
  · intro t ht
    obtain ⟨c, hc, hkeys⟩ := hchains t ht
    have hown : ∀ l t m, l ∈ r.lineage :: spine → m ∈ c → Own v l t m →
        Own (v.remove baseKey dead) l t m := by
      intro l t m hl hm ho
      obtain ⟨⟨members, hmembers, hw⟩, base, hb, habove⟩ := ho
      refine ⟨⟨members.filter (!dead ·.key), ?_, ?_⟩, base, (hbase l hl).trans hb, habove⟩
      · simp [View.remove, hmembers, Except.map]
      · exact winner_filter hw (by simp [halive (hkeys m hm)])
    refine ⟨c, hc, ?_⟩
    exact ((Resolved.of_chain hv hc).transfer hclosed hbase mem_cons_self hown).chain
      (hv.remove baseKey dead)
      ((baseSpine_ok_iff.mp ⟨spine, hspine⟩).transfer hclosed hbase mem_cons_self)

/-- Deleting any objects outside the mark leaves every live chain as it was,
whatever lower-epoch objects the deletion brings back to life. -/
theorem chain_remove_unreachable {v : View κ} (hv : Tidy v) {baseKey : Lineage → κ}
    {refs : List Ref} {marked : Marked κ}
    (hmark : reachableObjectsAndHeads v baseKey .empty refs = .ok marked)
    {dead : κ → Bool} (hdead : ∀ k, dead k = true → k ∉ marked.reachable)
    {r : Ref} (hr : r ∈ refs) {t : Nat} (ht : t ∈ r.txids) :
    ∃ c, chain v r.lineage t = .ok c ∧ chain (v.remove baseKey dead) r.lineage t = .ok c := by
  obtain ⟨-, hrefs, -⟩ := reachableObjectsAndHeads_ok hmark
  exact ((hrefs r hr).remove hv hdead).2 t ht

/-- A parent lineage `1` at head 2 and a child `2` forked there.  The fenced
snapshot `c` lost txid 2, and above the parent's head `e` outranks `d`. -/
def forkedView : View String where
  base
    | 2 => .ok (some ⟨1, 2⟩)
    | _ => .ok none
  members
    | 1 => .ok [⟨"a", true, 0, 1, 1⟩, ⟨"b", false, 2, 2, 3⟩, ⟨"c", true, 0, 2, 2⟩,
        ⟨"d", false, 3, 3, 3⟩, ⟨"e", true, 0, 3, 4⟩]
    | 2 => .ok [⟨"f", false, 3, 3, 1⟩]
    | _ => .ok []
  based := [2]
  mem_based := by
    intro l b h
    split at h
    · simp
    · cases h

def forkedRefs : List Ref :=
  [⟨1, 3, 2, 3, ∅, false, none, none, none, none, false, false, none, ∅, none⟩,
    ⟨2, 1, 3, 1, ∅, false, none, none, none, none, false, false, none, ∅, some ⟨1, 2⟩⟩]

def forkedBaseKey (l : Lineage) : String := if l = 2 then "base" else "none"

theorem tidy_forkedView : Tidy forkedView := by
  constructor
  · intro l members m h hm hs
    simp only [forkedView] at h
    split at h <;> cases h
    · simp only [mem_cons, not_mem_nil, or_false] at hm
      rcases hm with rfl | rfl | rfl | rfl | rfl <;> first | rfl | cases hs
    · rw [mem_singleton.mp hm]
    · cases hm
  · intro l members m b h hb hm
    simp only [forkedView] at h hb
    split at hb
    · cases h
      cases hb
      rw [mem_singleton.mp hm]
      decide
    · cases hb

/-- The mark keeps `a`, `b`, `f` and the child's base object, so `e` may go, which
brings `d` back to life at txid 3 of the parent. -/
theorem chain_remove_unreachable_forked : ∃ c, chain forkedView 2 3 = .ok c ∧
      chain (forkedView.remove forkedBaseKey (· == "e")) 2 3 = .ok c := by
  have hmark : reachableObjectsAndHeads forkedView forkedBaseKey .empty forkedRefs =
      .ok ⟨["a", "b", "base", "a", "b", "f"], forkedRefs.foldl noteHead ∅⟩ := rfl
  exact chain_remove_unreachable tidy_forkedView hmark (by simp)
    (mem_cons_of_mem _ mem_cons_self) mem_cons_self

end Offshoot
