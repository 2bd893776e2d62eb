import Offshoot.System.Alone

/-!
# What two passes leave

In a store at rest, two garbage collection passes without a grace period leave what the
refs reach and what the sweep protects, and nothing else.  The first pass writes a
tombstone for every object that is neither reachable nor has one; by the second all
tombstones are old enough, and each is acted on.
-/

namespace Offshoot

open Conc Maps List AList

variable {κ : Type} {v : View κ} {baseKey : Lineage → κ} {k : κ} {l : Lineage}

/-! ## The mark, exactly -/

/-- Every chain of the ref resolves, and so do its base pointers. -/
structure View.Resolves (v : View κ) (r : Ref) : Prop where
  spine : ∃ spine, baseSpine v r.lineage = .ok spine
  chains : ∀ t ∈ r.txids, ∃ c, chain v r.lineage t = .ok c

/-- The keys a ref reaches: the members of its chains, and the base objects along its
base pointers. -/
inductive View.Reaches (v : View κ) (baseKey : Lineage → κ) (r : Ref) : κ → Prop
  | chain {t : Nat} {c : List (ChainMember κ)} {m : ChainMember κ} : t ∈ r.txids →
      chain v r.lineage t = .ok c → m ∈ c → View.Reaches v baseKey r m.key
  | spine {spine : List Lineage} {l : Lineage} {b : BasePointer} :
      baseSpine v r.lineage = .ok spine → l ∈ r.lineage :: spine → v.base l = .ok (some b) →
      View.Reaches v baseKey r (baseKey l)

theorem spineKeys_cons (l l' : Lineage) (spine : List Lineage) :
    spineKeys baseKey l (l' :: spine) = baseKey l :: spineKeys baseKey l' spine := by
  cases spine with
  | nil => rfl
  | cons _ _ => rfl

theorem mem_spineKeys {start : Lineage} {seen spine : List Lineage}
    (h : baseSpineFrom v start fuel l seen = .ok spine) :
    k ∈ spineKeys baseKey l spine ↔
      ∃ l' ∈ l :: spine, (∃ b, v.base l' = .ok (some b)) ∧ baseKey l' = k := by
  refine baseSpineFrom_induction (motive := fun l _ spine => k ∈ spineKeys baseKey l spine ↔
    ∃ l' ∈ l :: spine, (∃ b, v.base l' = .ok (some b)) ∧ baseKey l' = k) ?stop ?step h
  case stop =>
    intro l seen hbase
    simp [spineKeys, hbase]
  case step =>
    intro l seen b rest hbase _ ih
    rw [spineKeys_cons, mem_cons, ih]
    constructor
    · rintro (rfl | ⟨l', hl', hb'⟩)
      · exact ⟨l, mem_cons_self, ⟨b, hbase⟩, rfl⟩
      · exact ⟨l', mem_cons_of_mem _ hl', hb'⟩
    · rintro ⟨l', hl', hb', hk⟩
      rcases mem_cons.mp hl' with rfl | hl'
      · exact .inl hk.symm
      · exact .inr ⟨l', hl', hb', hk⟩

theorem markChains_exact {ts : List Nat} (h : ∀ t ∈ ts, ∃ c, chain v l t = .ok c) :
    ∃ keys, markChains v l ts = .ok keys ∧
      ∀ k, k ∈ keys ↔ ∃ t ∈ ts, ∃ c, chain v l t = .ok c ∧ ∃ m ∈ c, m.key = k := by
  induction ts with
  | nil => exact ⟨[], rfl, by simp⟩
  | cons t ts ih =>
    obtain ⟨c, hc⟩ := h t mem_cons_self
    obtain ⟨keys, hkeys, hmem⟩ := ih fun u hu => h u (mem_cons_of_mem _ hu)
    refine ⟨c.map (·.key) ++ keys, by rw [markChains, hc]; simp [hkeys, Except.map], fun k => ?_⟩
    rw [mem_append, mem_map, hmem]
    constructor
    · rintro (⟨m, hm, rfl⟩ | ⟨u, hu, hk⟩)
      · exact ⟨t, mem_cons_self, c, hc, m, hm, rfl⟩
      · exact ⟨u, mem_cons_of_mem _ hu, hk⟩
    · rintro ⟨u, hu, c', hc', m, hm, hk⟩
      rcases mem_cons.mp hu with rfl | hu
      · cases hc.symm.trans hc'
        exact .inl ⟨m, hm, hk⟩
      · exact .inr ⟨u, hu, c', hc', m, hm, hk⟩

variable {acc : Marked κ}

theorem markRef_exact {r : Ref} (h : v.Resolves r) :
    ∃ m, markRef v baseKey acc r = .ok m ∧ m.heads = noteHead acc.heads r ∧
      ∀ k, k ∈ m.reachable ↔ k ∈ acc.reachable ∨ v.Reaches baseKey r k := by
  obtain ⟨spine, hspine⟩ := h.spine
  obtain ⟨keys, hkeys, hmem⟩ := markChains_exact h.chains
  refine ⟨⟨acc.reachable ++ (spineKeys baseKey r.lineage spine ++ keys), noteHead acc.heads r⟩,
    by rw [markRef, hspine]; simp [hkeys], rfl, fun k => ?_⟩
  have hreach : v.Reaches baseKey r k ↔
      k ∈ spineKeys baseKey r.lineage spine ∨ k ∈ keys := by
    rw [hmem, mem_spineKeys hspine]
    constructor
    · rintro (⟨ht, hc, hm⟩ | ⟨hs, hl, hb⟩)
      · exact .inr ⟨_, ht, _, hc, _, hm, rfl⟩
      · cases hspine.symm.trans hs
        exact .inl ⟨_, hl, ⟨_, hb⟩, rfl⟩
    · rintro (⟨l, hl, ⟨b, hb⟩, rfl⟩ | ⟨t, ht, c, hc, m, hm, rfl⟩)
      · exact .spine hspine hl hb
      · exact .chain ht hc hm
  rw [mem_append, mem_append, hreach]

theorem mark_exact {refs : List Ref} (h : ∀ r ∈ refs, v.Resolves r) :
    ∃ m, reachableObjectsAndHeads v baseKey acc refs = .ok m ∧
      m.heads = refs.foldl noteHead acc.heads ∧
      ∀ k, k ∈ m.reachable ↔ k ∈ acc.reachable ∨ ∃ r ∈ refs, v.Reaches baseKey r k := by
  induction refs generalizing acc with
  | nil => exact ⟨acc, rfl, rfl, by simp⟩
  | cons r refs ih =>
    obtain ⟨m₁, hm₁, hheads₁, hreach₁⟩ : ∃ m, markRef v baseKey acc r = .ok m ∧ _ :=
      markRef_exact (h r mem_cons_self)
    obtain ⟨m, hm, hheads, hreach⟩ : ∃ m, reachableObjectsAndHeads v baseKey m₁ refs = .ok m ∧ _ :=
      ih fun r' hr' => h r' (mem_cons_of_mem _ hr')
    refine ⟨m, by rw [reachableObjectsAndHeads, hm₁]; exact hm, by rw [hheads, hheads₁]; rfl,
      fun k => ?_⟩
    rw [hreach, hreach₁, exists_mem_cons_iff, or_assoc]

/-- A mark run on part of the store waits, or ends as it does on the whole. -/
theorem mark_part {v' : View κ} {S : Lineage → Prop} (h : v.Part v') (hS : v'.Closed S)
    {refs : List Ref} (hrefs : ∀ r ∈ refs, S r.lineage) :
    Waits v S (reachableObjectsAndHeads v baseKey acc refs) ∨
      reachableObjectsAndHeads v baseKey acc refs =
        reachableObjectsAndHeads v' baseKey acc refs := by
  have hchains {l : Lineage} (hl : S l) (ts : List Nat) :
      Waits v S (markChains v l ts) ∨ markChains v l ts = markChains v' l ts := by
    induction ts with
    | nil => exact .inr rfl
    | cons t ts ih =>
      rw [markChains, markChains]
      rcases chain_part (t := t) h hS hl with hw | heq
      · obtain ⟨e, rd, he, hw⟩ := hw
        rw [he]
        exact .inl ⟨e, rd, rfl, hw⟩
      · rw [heq]
        cases chain v' l t with
        | error e => exact .inr rfl
        | ok c => exact ih.imp .map fun heq => by rw [heq]
  induction refs generalizing acc with
  | nil => exact .inr rfl
  | cons r refs ih =>
    have hr := hrefs r mem_cons_self
    have hmark : Waits v S (markRef v baseKey acc r) ∨
        markRef v baseKey acc r = markRef v' baseKey acc r := by
      rw [markRef, markRef]
      rcases baseSpine_part h hS hr with hw | heq
      · obtain ⟨e, rd, he, hw⟩ := hw
        rw [he]
        exact .inl ⟨e, rd, rfl, hw⟩
      rw [heq]
      cases baseSpine v' r.lineage with
      | error e => exact .inr rfl
      | ok spine =>
        rcases hchains hr r.txids with hw | heq
        · obtain ⟨e, rd, he, hw⟩ := hw
          rw [he]
          exact .inl ⟨e, rd, rfl, hw⟩
        · exact .inr (by rw [heq])
    rw [reachableObjectsAndHeads, reachableObjectsAndHeads]
    rcases hmark with hw | heq
    · obtain ⟨e, rd, he, hw⟩ := hw
      rw [he]
      exact .inl ⟨e, rd, rfl, hw⟩
    · rw [heq]
      cases markRef v' baseKey acc r with
      | error e => exact .inr rfl
      | ok acc' => exact ih fun r' hr' => hrefs r' (mem_cons_of_mem _ hr')

/-! ## The heads noted -/

/-- A property of the least head and epoch that one of two heads must have. -/
theorem exists_foldl_noteHead {P : LiveHead → Prop}
    (hP : ∀ a b : LiveHead, P ⟨min a.txid b.txid, min a.epoch b.epoch⟩ ↔ P a ∨ P b)
    {refs : List Ref} {heads : Map Lineage LiveHead} :
    (∃ h, (refs.foldl noteHead heads).lookup l = some h ∧ P h) ↔
      (∃ h, heads.lookup l = some h ∧ P h) ∨
        ∃ r ∈ refs, r.lineage = l ∧ P ⟨r.headTXID, r.epoch⟩ := by
  induction refs generalizing heads with
  | nil => simp
  | cons r refs ih =>
    rw [foldl_cons, ih, exists_mem_cons_iff, ← or_assoc]
    refine or_congr_left ?_
    by_cases hl : r.lineage = l
    · subst hl
      cases hh : heads.lookup r.lineage with
      | none => simp [noteHead, hh]
      | some h => simp [noteHead, hh, hP ⟨r.headTXID, r.epoch⟩ h, or_comm]
    · have hne : l ≠ r.lineage := fun h => hl h.symm
      cases hh : heads.lookup r.lineage <;> simp [noteHead, hh, hl, lookup_insert_ne hne]

variable {k : DataKey}

/-- What the sweep protects lies above the least head of the refs on its lineage, under an
epoch not older than the least. -/
theorem aboveLiveHead_iff {refs : List Ref} :
    aboveLiveHead (refs.foldl noteHead ∅) k = true ↔ ∃ m, k.parseMember = some m ∧
      (∃ r ∈ refs, r.lineage = k.lineage ∧ r.headTXID < m.maxTXID) ∧
      ∃ r ∈ refs, r.lineage = k.lineage ∧ r.epoch ≤ m.epoch := by
  have hbelow (x : Nat) :
      (∃ h, (refs.foldl noteHead ∅).lookup k.lineage = some h ∧ h.txid < x) ↔ _ :=
    exists_foldl_noteHead fun _ _ => min_lt_iff
  have hepoch (x : Nat) :
      (∃ h, (refs.foldl noteHead ∅).lookup k.lineage = some h ∧ h.epoch ≤ x) ↔ _ :=
    exists_foldl_noteHead fun _ _ => min_le_iff
  simp only [lookup_empty, reduceCtorEq, false_and, exists_false, false_or] at hbelow hepoch
  simp only [← hbelow, ← hepoch]
  unfold aboveLiveHead
  cases hm : k.parseMember with
  | none => simp
  | some m =>
    cases hh : (refs.foldl noteHead ∅).lookup k.lineage with
    | none => simp
    | some h => simp

/-! ## A pass that runs alone -/

variable {env : Env} {P : Nat → Prop} {w w' : World} {i fuel : Nat}

def World.liveRefs (w : World) : List Ref := w.refs.keys.filterMap w.refs.lookup

theorem World.mem_liveRefs {r : Ref} : r ∈ w.liveRefs ↔ ∃ b, w.refs.lookup b = some r := by
  simp only [World.liveRefs, mem_filterMap]
  constructor
  · rintro ⟨b, -, hb⟩
    exact ⟨b, hb⟩
  · rintro ⟨b, hb⟩
    exact ⟨b, mem_keys.mp (lookup_isSome.mp (by simp [hb])), hb⟩

structure World.Idle (w w' : World) : Prop where
  refs : w'.refs = w.refs
  objs : w'.objs = w.objs
  stones : w'.stones = w.stones

theorem readRefs_alone {bs : List BranchId} : (readRefs bs).Alone (Timed env P)
    (fun r w' => r = .ok (bs.filterMap w.refs.lookup) ∧ w' = w) w := by
  induction bs with
  | nil => exact ⟨rfl, rfl⟩
  | cons b bs ih =>
    refine Prog.Alone.bind (Q := fun r w' => w' = w ∧
      r = (w.refs.lookup b).elim (.error .notFound) .ok) (.step fun o ho => ?_) fun r w' hr => ?_
    · rw [ho.1]
      refine ⟨rfl, ?_⟩
      cases w.refs.lookup b <;> rfl
    obtain ⟨rfl, rfl⟩ := hr
    cases hb : w'.refs.lookup b with
    | none =>
      rw [filterMap_cons, hb]
      exact ih
    | some r =>
      rw [filterMap_cons, hb]
      refine ih.bind fun rs w' hrs => ?_
      obtain ⟨rfl, rfl⟩ := hrs
      exact ⟨rfl, rfl⟩

variable {m : Marked DataKey}

theorem markRefs_alone (hm : reachableObjectsAndHeads w.view .base .empty w.liveRefs = .ok m)
    (hfuel : 2 * (w.refs.keys.length + w.view.based.length) < fuel) :
    (markRefs fuel).Alone (Timed env P) (fun r w' => r = .ok m ∧ w' = w) w := by
  refine Prog.Alone.bind (Q := fun r w' => r = .ok w.refs.keys ∧ w' = w) (.step fun o ho => ?_)
    fun r w' hr => ?_
  · rw [ho.1]
    exact ⟨rfl, rfl⟩
  obtain ⟨rfl, rfl⟩ := hr
  refine readRefs_alone.bind fun r w hr => ?_
  obtain ⟨rfl, rfl⟩ := hr
  have hcard : (w.within (w.liveRefs.map Ref.lineage)).card ≤ _ := World.card_within
  have hlack := Cache.lacking_empty (S := w.within (w.liveRefs.map Ref.lineage))
  have hlen : w.liveRefs.length ≤ w.refs.keys.length := length_filterMap_le _ _
  rw [length_map] at hcard
  have hresolve : (resolve (reachableObjectsAndHeads · .base .empty w.liveRefs) fuel .empty).Alone
      (Timed env P) _ w :=
    resolve_alone (fun _ _ h => h.1) (fun v hv => mark_part hv World.within_closed
      fun r hr => World.within_start (mem_map_of_mem hr)) hm Cache.Good.empty (by omega)
  exact hresolve.bind fun r w hr => hr

theorem mark_alone (hm : reachableObjectsAndHeads w.view .base .empty w.liveRefs = .ok m)
    (hfuel : 2 * (w.refs.keys.length + w.view.based.length) < fuel) :
    (mark env i fuel).Alone (Timed env P) (fun r w' => r = .ok m ∧ w.Idle w') w := by
  refine (markRefs_alone hm hfuel).bind fun r w' hr => ?_
  obtain ⟨rfl, rfl⟩ := hr
  refine Prog.Alone.bind (Q := fun _ w'' => w'.Idle w'') (.step fun o ho => ⟨rfl, rfl, rfl⟩)
    fun _ w'' hw'' => ⟨rfl, hw''⟩

theorem loadTombstones_alone : loadTombstones.Alone (Timed env P)
    (fun r w' => r = .ok w.stones ∧ w' = w) w := by
  refine .step fun o ho => ?_
  rw [ho.1]
  exact ⟨rfl, rfl⟩

theorem listData_alone : listData.Alone (Timed env P)
    (fun r w' => r = .ok w.objs.keys ∧ w' = w) w := by
  refine .step fun o ho => ?_
  rw [ho.1]
  exact ⟨rfl, rfl⟩

theorem now_alone : (now env).Alone (Timed env P) (fun t w' => P t ∧ w' = w) w :=
  .step fun _ ho => ⟨ho.2, rfl⟩

variable {stones : Stones}

theorem putTombstones_alone : (putTombstones env w.stones stones).Alone
    (Timed env P) (fun r w' => r = .ok () ∧ w' = { w with stones := some stones }) w := by
  refine .step fun o ho => ?_
  simp only [ho.1, Bool.not_false, and_true, if_true]

variable {ks : List DataKey}

/-- The keys stamped are those without a tombstone that are not reachable. -/
theorem stampNew_alone {reachable : List DataKey} :
    (stampNew env reachable stones ks).Alone (Timed env P)
      (fun new w' => w' = w ∧ (∀ s ∈ new, P s.2) ∧
        new.map (·.1) = ks.filter fun k => k ∉ reachable ∧ stones.lookup k = none) w := by
  induction ks with
  | nil => exact ⟨rfl, by simp, rfl⟩
  | cons k ks ih =>
    rw [stampNew]
    by_cases hk : k ∈ reachable ∨ (stones.lookup k).isSome
    · rw [if_pos hk]
      have hout : ¬ (k ∉ reachable ∧ stones.lookup k = none) := by
        rintro ⟨h1, h2⟩
        simp [h1, h2] at hk
      refine ih.mono fun new w' h => ?_
      rw [filter_cons, if_neg (by simpa using hout)]
      exact h
    · rw [if_neg hk]
      have hin : k ∉ reachable ∧ stones.lookup k = none := by
        simpa [not_or] using hk
      refine now_alone.bind fun t w' ht => ?_
      obtain ⟨ht, rfl⟩ := ht
      refine ih.bind fun new w' h => ?_
      obtain ⟨rfl, htimes, hkeys⟩ := h
      refine ⟨rfl, fun s hs => ?_, ?_⟩
      · rcases mem_cons.mp hs with rfl | hs
        · exact ht
        · exact htimes s hs
      · rw [filter_cons, if_pos (by simpa using hin), map_cons, hkeys]

def Objects.drop (objs : Objects) (ks : List DataKey) : Objects :=
  ks.foldl (fun o k => o.erase k) objs

theorem Objects.lookup_drop {objs : Objects} :
    (objs.drop ks).lookup k = if k ∈ ks then none else objs.lookup k := by
  induction ks generalizing objs with
  | nil => simp [Objects.drop]
  | cons k' ks ih =>
    have hcons : objs.drop (k' :: ks) = Objects.drop (objs.erase k') ks := rfl
    rw [hcons, ih]
    by_cases hk : k = k'
    · subst hk
      simp
    · simp [hk, lookup_erase_ne hk]

theorem Objects.keys_drop {objs : Objects} : (objs.drop ks).keys.Sublist objs.keys := by
  induction ks generalizing objs with
  | nil => exact .refl _
  | cons k ks ih =>
    have hcons : objs.drop (k :: ks) = Objects.drop (objs.erase k) ks := rfl
    exact ih.trans (keys_erase k objs ▸ erase_sublist)

theorem Objects.members_drop {objs : Objects} :
    (objs.drop ks).members l = (objs.members l).filter (·.key ∉ ks) := by
  induction ks generalizing objs with
  | nil => simp [Objects.drop]
  | cons k ks ih =>
    have hcons : objs.drop (k :: ks) = Objects.drop (objs.erase k) ks := rfl
    rw [hcons, ih, Objects.members_erase, filter_filter]
    refine filter_congr fun m _ => ?_
    simp [not_or, Bool.and_comm]

theorem sweepDelete_alone : (sweepDelete env i ks).Alone (Timed env P)
    (fun r w' => r = ks ∧ w'.refs = w.refs ∧ w'.stones = w.stones ∧ w'.objs = w.objs.drop ks)
    w := by
  induction ks generalizing w with
  | nil => exact ⟨rfl, rfl, rfl, rfl⟩
  | cons k ks ih =>
    refine Prog.Alone.bind (Q := fun r w' => r = true ∧ w'.refs = w.refs ∧ w'.stones = w.stones ∧
      w'.objs = w.objs.erase k) (.step fun o ho => ?_) fun r w' hr => ?_
    · simp only [ho.1, Bool.not_false, if_true]
      exact ⟨trivial, rfl, rfl, rfl⟩
    obtain ⟨rfl, hrefs, hstones, hobjs⟩ := hr
    refine (ih (w := w')).bind fun r w'' h => ?_
    obtain ⟨rfl, hrefs', hstones', hobjs'⟩ := h
    exact ⟨rfl, hrefs'.trans hrefs, hstones'.trans hstones, by rw [hobjs', hobjs]; rfl⟩

theorem pruneTombstones_alone {keys : List DataKey} {n : Nat} :
    (pruneTombstones env keys (n + 1)).Alone (Timed env P)
      (fun r w' => r = .ok () ∧ w'.refs = w.refs ∧ w'.objs = w.objs ∧
        ∀ k, w'.stone k = if k ∈ keys then none else w.stone k) w := by
  rw [pruneTombstones]
  by_cases hnil : keys = []
  · rw [if_pos hnil]
    exact ⟨rfl, rfl, rfl, fun k => by simp [hnil]⟩
  · rw [if_neg hnil]
    refine loadTombstones_alone.bind fun r w' hr => ?_
    obtain ⟨rfl, rfl⟩ := hr
    dsimp only
    split
    · rename_i hall
      refine ⟨rfl, rfl, rfl, fun k => ?_⟩
      split
      · rename_i hk
        have := all_eq_true.mp hall k hk
        simpa [World.stone] using this
      · rfl
    · refine putTombstones_alone.bind fun r w'' hr => ?_
      obtain ⟨rfl, rfl⟩ := hr
      refine ⟨rfl, rfl, rfl, fun k => ?_⟩
      simp only [World.stone, Option.getD_some, lookup_keepIf]
      by_cases hk : k ∈ keys
      · cases (w'.stones.getD ∅).lookup k <;> simp [hk]
      · cases (w'.stones.getD ∅).lookup k <;> simp [hk]

variable {grace : Nat}

theorem mem_expired {new : List (DataKey × Nat)} {time : Nat} : k ∈ expired stones new grace time ↔
      k ∉ new.map (·.1) ∧ ∃ t, stones.lookup k = some t ∧ t + grace < time := by
  simp only [expired, mem_map, mem_filter, Bool.and_eq_true, decide_eq_true_eq,
    Sigma.exists, exists_and_right, exists_eq_right]
  constructor
  · rintro ⟨t, hmem, hnew, hlt⟩
    exact ⟨by simpa using hnew, t, mem_lookup_iff.mpr hmem, hlt⟩
  · rintro ⟨hnew, t, hlook, hlt⟩
    exact ⟨t, mem_lookup_iff.mp hlook, by simpa using hnew, hlt⟩

def World.Old (w : World) (grace cutoff : Nat) (k : DataKey) : Prop :=
  ∃ t, w.stone k = some t ∧ t + grace < cutoff

/-- What one pass does: a key that is neither reachable nor has a tombstone gets one, and
a tombstone that is old enough is acted on by its verdict. -/
structure Swept (m : Marked DataKey) (grace : Nat) (P : Nat → Prop) (w w' : World) : Prop where
  refs : w'.refs = w.refs
  acts : ∃ cutoff, P cutoff ∧
    (∃ ks, w'.objs = w.objs.drop ks ∧
      ∀ k, k ∈ ks ↔ w.Old grace cutoff k ∧ sweepVerdict m w.objs.keys k = .delete) ∧
    ∀ k t, w'.stone k = some t →
      ¬ (w.Old grace cutoff k ∧ sweepVerdict m w.objs.keys k ≠ .keep) ∧
      (w.stone k = some t ∨ P t ∧ k ∈ w.objs ∧ k ∉ m.reachable ∧ w.stone k = none)
  keeps : ∀ k, k ∈ w'.objs → k ∉ m.reachable → ∃ t, w'.stone k = some t

/-- The second half of a pass, over a list in which every key that is not reachable has
its tombstone.  The pass's own tombstones are among those given. -/
theorem sweep_alone {new : List (DataKey × Nat)}
    (hm : reachableObjectsAndHeads w.view .base .empty w.liveRefs = .ok m)
    (hfuel : 2 * (w.refs.keys.length + w.view.based.length) < fuel) :
    (sweep env i grace fuel (w.stones.getD ∅) new).Alone (Timed env P)
      (fun r w' => r = .ok () ∧ w'.refs = w.refs ∧ ∃ cutoff, P cutoff ∧
        (∃ ks, w'.objs = w.objs.drop ks ∧ ∀ k, k ∈ ks ↔ k ∉ new.map (·.1) ∧
          w.Old grace cutoff k ∧ sweepVerdict m w.objs.keys k = .delete) ∧
        (∀ k, w'.stone k = w.stone k ∨ w'.stone k = none) ∧
        ∀ k, w'.stone k = none ↔ w.stone k = none ∨ k ∉ new.map (·.1) ∧
          w.Old grace cutoff k ∧ sweepVerdict m w.objs.keys k ≠ .keep) w := by
  refine now_alone.bind fun cutoff w' hc => ?_
  obtain ⟨hc, rfl⟩ := hc
  have hexp (k : DataKey) : k ∈ expired (w'.stones.getD ∅) new grace cutoff ↔
      k ∉ new.map (·.1) ∧ w'.Old grace cutoff k := mem_expired
  dsimp only
  split
  · rename_i hnil
    have hnone (k : DataKey) : ¬ (k ∉ new.map (·.1) ∧ w'.Old grace cutoff k) := by
      rw [← hexp, hnil]
      exact not_mem_nil
    refine ⟨rfl, rfl, cutoff, hc, ⟨[], rfl, fun k => ?_⟩, fun k => .inl rfl, fun k => ?_⟩
    · constructor
      · intro hk
        cases hk
      · rintro ⟨hk, ho, -⟩
        exact absurd ⟨hk, ho⟩ (hnone k)
    · constructor
      · exact .inl
      · rintro (h | ⟨hk, ho, -⟩)
        · exact h
        · exact absurd ⟨hk, ho⟩ (hnone k)
  · refine (mark_alone hm hfuel).bind fun r w₁ hr => ?_
    obtain ⟨rfl, hidle⟩ := hr
    refine listData_alone.bind fun r w₂ hr => ?_
    obtain ⟨rfl, rfl⟩ := hr
    refine sweepDelete_alone.bind fun deleted w₃ h₃ => ?_
    obtain ⟨rfl, hrefs, hstones, hobjs⟩ := h₃
    refine pruneTombstones_alone.mono fun r w₄ h₄ => ?_
    obtain ⟨rfl, hrefs', hobjs', hstone⟩ := h₄
    have hdel (k : DataKey) : k ∈ (expired (w'.stones.getD ∅) new grace cutoff).filter
        (sweepVerdict m w₂.objs.keys · = .delete) ↔ k ∉ new.map (·.1) ∧ w'.Old grace cutoff k ∧
          sweepVerdict m w'.objs.keys k = .delete := by
      rw [mem_filter, hexp, hidle.objs, decide_eq_true_eq, and_assoc]
    have hprune (k : DataKey) : k ∈ (expired (w'.stones.getD ∅) new grace cutoff).filter
        (sweepVerdict m w₂.objs.keys · = .prune) ↔ k ∉ new.map (·.1) ∧ w'.Old grace cutoff k ∧
          sweepVerdict m w'.objs.keys k = .prune := by
      rw [mem_filter, hexp, hidle.objs, decide_eq_true_eq, and_assoc]
    have hsame (k : DataKey) : w₃.stone k = w'.stone k := by
      rw [World.stone, hstones, hidle.stones]
      rfl
    refine ⟨rfl, hrefs'.trans (hrefs.trans hidle.refs), cutoff, hc,
      ⟨_, by rw [hobjs', hobjs, hidle.objs], hdel⟩, fun k => ?_, fun k => ?_⟩
    · rw [hstone, hsame]
      split
      · exact .inr rfl
      · exact .inl rfl
    · have hcases : sweepVerdict m w'.objs.keys k ≠ .keep ↔
          sweepVerdict m w'.objs.keys k = .prune ∨ sweepVerdict m w'.objs.keys k = .delete := by
        cases sweepVerdict m w'.objs.keys k <;> simp
      have hgone := (mem_append.trans (or_congr (hprune k) (hdel k))).trans
        (show _ ↔ k ∉ new.map (·.1) ∧ w'.Old grace cutoff k ∧
          sweepVerdict m w'.objs.keys k ≠ .keep by rw [hcases]; tauto)
      rw [hstone, hsame]
      split
      · rename_i h
        exact iff_of_true rfl (.inr (hgone.mp h))
      · rename_i h
        exact ⟨.inl, fun hx => hx.resolve_right fun hx => h (hgone.mpr hx)⟩

theorem gc_alone (hm : reachableObjectsAndHeads w.view .base .empty w.liveRefs = .ok m)
    (hfuel : 2 * (w.refs.keys.length + w.view.based.length) < fuel) :
    (gc env i grace fuel).Alone (Timed env P)
      (fun r w' => r = .ok () ∧ Swept m grace P w w') w := by
  refine (mark_alone hm hfuel).bind fun r w₁ hr => ?_
  obtain ⟨rfl, hidle⟩ := hr
  refine listData_alone.bind fun r w₂ hr => ?_
  obtain ⟨rfl, rfl⟩ := hr
  refine loadTombstones_alone.bind fun r w₁ hr => ?_
  obtain ⟨rfl, rfl⟩ := hr
  refine stampNew_alone.bind fun new w₂ hnew => ?_
  obtain ⟨rfl, htimes, hkeys⟩ := hnew
  have hview : w₂.view = w.view := by simp [World.view, hidle.objs]
  have hlive : w₂.liveRefs = w.liveRefs := by simp [World.liveRefs, hidle.refs]
  have hstone (k : DataKey) : w₂.stone k = w.stone k := by simp [World.stone, hidle.stones]
  -- What is new is what is neither reachable nor has a tombstone.
  have hfresh (k : DataKey) : k ∈ new.map (·.1) ↔
      k ∈ w.objs ∧ k ∉ m.reachable ∧ w.stone k = none := by
    rw [hkeys, mem_filter, decide_eq_true_eq, ← hstone, hidle.objs]
    rfl
  -- The sweep runs over the old tombstones and the new.
  have hsweep {w₃ : World} (hrefs : w₃.refs = w.refs) (hobjs : w₃.objs = w.objs)
      (hold : ∀ k, k ∉ new.map (·.1) → w₃.stone k = w.stone k)
      (hadd : ∀ k, k ∈ new.map (·.1) → ∃ t, (k, t) ∈ new ∧ w₃.stone k = some t) :
      (sweep env i grace fuel (w₃.stones.getD ∅) new).Alone (Timed env P)
        (fun r w' => r = .ok () ∧ Swept m grace P w w') w₃ := by
    have hm₃ : reachableObjectsAndHeads w₃.view .base .empty w₃.liveRefs = .ok m := by
      simpa [World.view, World.liveRefs, hrefs, hobjs] using hm
    have hfuel₃ : 2 * (w₃.refs.keys.length + w₃.view.based.length) < fuel := by
      simpa [World.view, hrefs, hobjs] using hfuel
    have hOld {c : Nat} {k : DataKey} : k ∉ new.map (·.1) ∧ w₃.Old grace c k ↔ w.Old grace c k := by
      constructor
      · rintro ⟨hk, t, ht, hlt⟩
        exact ⟨t, (hold k hk).symm.trans ht, hlt⟩
      · rintro ⟨t, ht, hlt⟩
        have hk : k ∉ new.map (·.1) := fun hk => by simp [((hfresh k).mp hk).2.2] at ht
        exact ⟨hk, t, (hold k hk).trans ht, hlt⟩
    refine (sweep_alone hm₃ hfuel₃).mono fun r w' h => ?_
    obtain ⟨rfl, hrefs', cutoff, hc, ⟨ks, hks, hmem⟩, hsame, hnone⟩ := h
    rw [hobjs] at hks hmem hnone
    simp only [← and_assoc, hOld] at hmem hnone
    refine ⟨rfl, hrefs'.trans hrefs, ⟨cutoff, hc, ⟨ks, hks, hmem⟩, fun k t ht => ⟨?_, ?_⟩⟩, ?_⟩
    · intro hx
      rw [(hnone k).mpr (.inr hx)] at ht
      cases ht
    · have hk₃ : w₃.stone k = some t := by
        rcases hsame k with heq | heq
        · exact heq.symm.trans ht
        · rw [heq] at ht
          cases ht
      by_cases hk : k ∈ new.map (·.1)
      · obtain ⟨t', ht', hlook⟩ := hadd k hk
        cases hlook.symm.trans hk₃
        exact .inr ⟨htimes _ ht', (hfresh k).mp hk⟩
      · exact .inl ((hold k hk).symm.trans hk₃)
    · intro k hk hunreach
      rw [hks, ← lookup_isSome, Objects.lookup_drop] at hk
      split at hk
      · cases hk
      rename_i hkept
      have hkw : k ∈ w.objs := lookup_isSome.mp hk
      refine Option.ne_none_iff_exists'.mp fun hgone => ?_
      rcases (hnone k).mp hgone with hno | ⟨ho, hv⟩
      · by_cases hin : k ∈ new.map (·.1)
        · obtain ⟨t, -, ht⟩ := hadd k hin
          rw [ht] at hno
          cases hno
        · exact hin ((hfresh k).mpr ⟨hkw, hunreach, (hold k hin).symm.trans hno⟩)
      · -- A verdict on an object that is there and not reachable is to keep or delete it.
        have hdel : sweepVerdict m w.objs.keys k = .delete := by
          have hexists : k ∈ w.objs.keys := mem_keys.mp hkw
          unfold sweepVerdict at hv ⊢
          rw [if_neg hunreach, if_neg (not_not.mpr hexists)] at hv ⊢
          split at hv
          · exact absurd rfl hv
          · rename_i habove
            rw [if_neg habove]
        exact hkept ((hmem k).mpr ⟨ho, hdel⟩)
  split
  · rename_i hnil
    have := hsweep hidle.refs hidle.objs (fun k _ => hstone k) (by simp [hnil])
    rwa [hnil] at this
  · refine Prog.Alone.bind (Q := fun r w₃ => r = .ok () ∧
      w₃ = { w₂ with stones := some (addStones (w₂.stones.getD ∅) new) })
      (loadTombstones_alone.bind fun r w₃ hr => ?_) fun r w₃ hr => ?_
    · obtain ⟨rfl, rfl⟩ := hr
      exact putTombstones_alone
    obtain ⟨rfl, rfl⟩ := hr
    refine loadTombstones_alone.bind fun r w₃ hr => ?_
    rw [hr.1, hr.2]
    refine hsweep hidle.refs hidle.objs (fun k hk => ?_) fun k hk => ?_
    · exact (lookup_addStones.1 hk).trans (hstone k)
    · exact lookup_addStones.2 hk

/-! ## Two passes -/

namespace World

def Resolves (w : World) : Prop := ∀ b r, w.refs.lookup b = some r → w.view.Resolves r

def Reaches (w : World) (k : DataKey) : Prop :=
  ∃ b r, w.refs.lookup b = some r ∧ w.view.Reaches .base r k

/-- A member object above the least head of the live refs on its lineage, under an epoch
not older than their least. -/
def AboveHeads (w : World) (k : DataKey) : Prop :=
  ∃ m, k.parseMember = some m ∧
    (∃ b r, w.refs.lookup b = some r ∧ r.lineage = k.lineage ∧ r.headTXID < m.maxTXID) ∧
    ∃ b r, w.refs.lookup b = some r ∧ r.lineage = k.lineage ∧ r.epoch ≤ m.epoch

end World

theorem World.Resolves.mark (h : w.Resolves) :
    ∃ m, reachableObjectsAndHeads w.view .base .empty w.liveRefs = .ok m ∧
      (∀ k, k ∈ m.reachable ↔ w.Reaches k) ∧ ∀ k, aboveLiveHead m.heads k ↔ w.AboveHeads k := by
  obtain ⟨m, hm, hheads, hreach⟩ :
      ∃ m, reachableObjectsAndHeads w.view .base .empty w.liveRefs = .ok m ∧ _ :=
    mark_exact fun r hr => by
      obtain ⟨b, hb⟩ := World.mem_liveRefs.mp hr
      exact h b r hb
  refine ⟨m, hm, fun k => ?_, fun k => ?_⟩
  · rw [hreach]
    simp only [Marked.empty, not_mem_nil, false_or, World.mem_liveRefs, World.Reaches]
    constructor
    · rintro ⟨r, ⟨b, hb⟩, hr⟩
      exact ⟨b, r, hb, hr⟩
    · rintro ⟨b, r, hb, hr⟩
      exact ⟨r, ⟨b, hb⟩, hr⟩
  · rw [hheads, Marked.empty, aboveLiveHead_iff]
    simp only [World.mem_liveRefs, World.AboveHeads]
    constructor
    · rintro ⟨m, hm, ⟨r, ⟨b, hb⟩, hr⟩, r', ⟨b', hb'⟩, hr'⟩
      exact ⟨m, hm, ⟨b, r, hb, hr⟩, b', r', hb', hr'⟩
    · rintro ⟨m, hm, ⟨b, r, hb, hr⟩, b', r', hb', hr'⟩
      exact ⟨m, hm, ⟨r, ⟨b, hb⟩, hr⟩, r', ⟨b', hb'⟩, hr'⟩

theorem World.Reaches.mem (h : w.Reaches k) : k ∈ w.objs := by
  obtain ⟨b, r, -, hr⟩ := h
  cases hr with
  | chain _ hc hm =>
    obtain ⟨l, members, hmembers, hlive, -⟩ := chainFrom_mem (P := fun _ _ => True)
      (fun _ _ => trivial) (fun _ => trivial) trivial hc hm
    cases hmembers
    obtain ⟨k, o, hk, -, hp⟩ := Objects.mem_members.mp (mem_of_mem_keepHighestEpoch hlive)
    rw [DataKey.parseMember_key hp]
    exact lookup_isSome.mp (by simp [hk])
  | spine _ _ hb => exact lookup_isSome.mp (by simp [Objects.base_ok_some.mp hb])

/-- Without objects that nothing reaches, a store resolves and reaches as it did. -/
theorem World.Resolves.drop (h : w.Resolves) (htidy : Tidy w.view) (hrefs : w'.refs = w.refs)
    (hobjs : w'.objs = w.objs.drop ks) (hks : ∀ k ∈ ks, ¬ w.Reaches k) :
    w'.Resolves ∧ ∀ k, w'.Reaches k ↔ w.Reaches k := by
  obtain ⟨m, hm, hreach, -⟩ := h.mark
  have hbase (l : Lineage) : w'.view.base l = (w.view.remove .base (· ∈ ks)).base l := by
    show Objects.base _ l = if _ then _ else Objects.base _ l
    by_cases hl : DataKey.base l ∈ ks
    · rw [if_pos (by simpa using hl)]
      exact Objects.base_ok_none.mpr (by rw [hobjs, Objects.lookup_drop, if_pos hl])
    · rw [if_neg (by simpa using hl), Objects.base, Objects.base, hobjs, Objects.lookup_drop,
        if_neg hl]
  have hmembers (l : Lineage) :
      w'.view.members l = (w.view.remove .base (· ∈ ks)).members l := by
    show Except.ok (Objects.members _ l) = Except.ok (List.filter _ (Objects.members _ l))
    rw [hobjs, Objects.members_drop]
    congr 1
    exact filter_congr fun x _ => by simp
  have hdead (k : DataKey) (hk : decide (k ∈ ks) = true) : k ∉ m.reachable := fun hr =>
    hks k (of_decide_eq_true hk) ((hreach k).mp hr)
  have hkept {b : BranchId} {r : Ref} (hb : w.refs.lookup b = some r) :=
    ((reachableObjectsAndHeads_ok hm).2.1 r (World.mem_liveRefs.mpr ⟨b, hb⟩)).remove htidy hdead
  have hsame {b : BranchId} {r : Ref} (hb : w.refs.lookup b = some r) :
      w'.view.Resolves r ∧ ∀ k, w'.view.Reaches .base r k ↔ w.view.Reaches .base r k := by
    obtain ⟨⟨spine, hspine, hspine', hpointers⟩, hchains⟩ := hkept hb
    rw [← baseSpine_congr hbase] at hspine'
    have hchain (t : Nat) (ht : t ∈ r.txids) : ∃ c, chain w.view r.lineage t = .ok c ∧
        chain w'.view r.lineage t = .ok c := by
      obtain ⟨c, hc, hc'⟩ := hchains t ht
      exact ⟨c, hc, (chain_congr hbase hmembers _ _).trans hc'⟩
    refine ⟨⟨⟨spine, hspine'⟩, fun t ht => ?_⟩, fun k => ⟨?_, ?_⟩⟩
    · obtain ⟨c, -, hc'⟩ := hchain t ht
      exact ⟨c, hc'⟩
    · rintro (⟨ht, hc, hmem⟩ | ⟨hs, hl, hp⟩)
      · obtain ⟨c, hc₁, hc₂⟩ := hchain _ ht
        cases hc₂.symm.trans hc
        exact .chain ht hc₁ hmem
      · cases hspine'.symm.trans hs
        exact .spine hspine hl ((hpointers _ hl).symm.trans ((hbase _).symm.trans hp))
    · rintro (⟨ht, hc, hmem⟩ | ⟨hs, hl, hp⟩)
      · obtain ⟨c, hc₁, hc₂⟩ := hchain _ ht
        cases hc₁.symm.trans hc
        exact .chain ht hc₂ hmem
      · cases hspine.symm.trans hs
        exact .spine hspine' hl ((hbase _).trans ((hpointers _ hl).trans hp))
  constructor
  · intro b r hb
    exact (hsame (hrefs ▸ hb)).1
  · intro k
    constructor
    · rintro ⟨b, r, hb, hr⟩
      exact ⟨b, r, hrefs ▸ hb, ((hsame (hrefs ▸ hb)).2 k).mp hr⟩
    · rintro ⟨b, r, hb, hr⟩
      exact ⟨b, r, by rw [hrefs]; exact hb, ((hsame hb).2 k).mpr hr⟩

theorem sweepVerdict_delete {existing : List DataKey} (hk : k ∈ existing) :
    sweepVerdict m existing k = .delete ↔ k ∉ m.reachable ∧ ¬ aboveLiveHead m.heads k := by
  unfold sweepVerdict
  by_cases hr : k ∈ m.reachable
  · simp [hr]
  · rw [if_neg hr, if_neg (not_not.mpr hk)]
    cases aboveLiveHead m.heads k <;> simp [hr]

theorem sweepVerdict_keep {existing : List DataKey} : sweepVerdict m existing k = .keep ↔
      k ∉ m.reachable ∧ k ∈ existing ∧ aboveLiveHead m.heads k := by
  unfold sweepVerdict
  by_cases hr : k ∈ m.reachable
  · simp [hr]
  · by_cases hk : k ∈ existing
    · rw [if_neg hr, if_neg (not_not.mpr hk)]
      cases aboveLiveHead m.heads k <;> simp [hr, hk]
    · simp [hr, hk]

theorem World.AboveHeads.congr (hrefs : w'.refs = w.refs) : w'.AboveHeads k ↔ w.AboveHeads k := by
  simp only [World.AboveHeads, hrefs]

theorem Objects.mem_drop {objs : Objects} : k ∈ objs.drop ks ↔ k ∈ objs ∧ k ∉ ks := by
  rw [← lookup_isSome, ← lookup_isSome, Objects.lookup_drop]
  by_cases hk : k ∈ ks <;> simp [hk]

/-- After a pass over a store in which every tombstone dates from before `T`: nothing that
is reachable or protected is gone, every other object has a tombstone, and all
tombstones date from before `T`. -/
theorem Swept.first {T : Nat} (hs : Swept m 0 (· ≤ T) w w')
    (hreach : ∀ k, k ∈ m.reachable ↔ w.Reaches k)
    (habove : ∀ k, aboveLiveHead m.heads k ↔ w.AboveHeads k)
    (hstones : ∀ k t, w.stone k = some t → t ≤ T) :
    (∃ ks, w'.objs = w.objs.drop ks ∧ ∀ k ∈ ks, k ∈ w.objs → ¬ w.Reaches k ∧ ¬ w.AboveHeads k) ∧
      (∀ k ∈ w'.objs, ¬ w.Reaches k → ∃ t, w'.stone k = some t) ∧
      ∀ k t, w'.stone k = some t → t ≤ T := by
  obtain ⟨cutoff, -, ⟨ks, hks, hmem⟩, hstone⟩ := hs.acts
  refine ⟨⟨ks, hks, fun k hk hkw => ?_⟩, fun k hk hr => hs.keeps k hk (mt (hreach k).mp hr),
    fun k t ht => ?_⟩
  · have hdel := (sweepVerdict_delete (mem_keys.mp hkw)).mp ((hmem k).mp hk).2
    exact ⟨mt (hreach k).mpr hdel.1, mt (habove k).mpr hdel.2⟩
  · rcases (hstone k t ht).2 with h | h
    · exact hstones k t h
    · exact h.1

/-- After a pass over a store in which every object that is not reachable has a tombstone
and all tombstones are old enough: only what is reachable or protected is left, and only
what is protected has a tombstone. -/
theorem Swept.second {T : Nat} (hs : Swept m 0 (T < ·) w w')
    (hreach : ∀ k, k ∈ m.reachable ↔ w.Reaches k)
    (habove : ∀ k, aboveLiveHead m.heads k ↔ w.AboveHeads k)
    (hall : ∀ k ∈ w.objs, ¬ w.Reaches k → ∃ t, w.stone k = some t)
    (hstones : ∀ k t, w.stone k = some t → t ≤ T) :
    (∀ k, k ∈ w'.objs ↔ w.Reaches k ∨ k ∈ w.objs ∧ w.AboveHeads k) ∧
      (∀ k, k ∈ w'.objs → w'.objs.lookup k = w.objs.lookup k) ∧
      ∀ k t, w'.stone k = some t → k ∈ w'.objs ∧ w.AboveHeads k ∧ ¬ w.Reaches k := by
  obtain ⟨cutoff, hc, ⟨ks, hks, hmem⟩, hstone⟩ := hs.acts
  have hold {k : DataKey} {t : Nat} (ht : w.stone k = some t) : w.Old 0 cutoff k :=
    ⟨t, ht, by have := hstones k t ht; omega⟩
  have hobjs (k : DataKey) : k ∈ w'.objs ↔ w.Reaches k ∨ k ∈ w.objs ∧ w.AboveHeads k := by
    rw [hks, Objects.mem_drop, hmem]
    constructor
    · rintro ⟨hk, hnot⟩
      by_cases hr : w.Reaches k
      · exact .inl hr
      · obtain ⟨t, ht⟩ := hall k hk hr
        refine .inr ⟨hk, by_contra fun ha => hnot ⟨hold ht, ?_⟩⟩
        exact (sweepVerdict_delete (mem_keys.mp hk)).mpr
          ⟨mt (hreach k).mp hr, mt (habove k).mp ha⟩
    · intro h
      have hk : k ∈ w.objs := h.elim World.Reaches.mem And.left
      refine ⟨hk, fun hdel => ?_⟩
      have hverdict := (sweepVerdict_delete (mem_keys.mp hk)).mp hdel.2
      rcases h with hr | ha
      · exact hverdict.1 ((hreach k).mpr hr)
      · exact hverdict.2 ((habove k).mpr ha.2)
  refine ⟨hobjs, fun k hk => ?_, fun k t ht => ?_⟩
  · rw [hks, Objects.mem_drop] at hk
    rw [hks, Objects.lookup_drop, if_neg hk.2]
  · obtain ⟨hnot, hwas⟩ := hstone k t ht
    have htw : w.stone k = some t := by
      rcases hwas with h | ⟨-, hk, hr, hnone⟩
      · exact h
      · obtain ⟨t', ht'⟩ := hall k hk (mt (hreach k).mpr hr)
        rw [hnone] at ht'
        cases ht'
    have hkeep : sweepVerdict m w.objs.keys k = .keep := by_contra fun hv => hnot ⟨hold htw, hv⟩
    obtain ⟨hr, hk, ha⟩ := sweepVerdict_keep.mp hkeep
    have ha' := (habove k).mp ha
    exact ⟨(hobjs k).mpr (.inr ⟨mem_keys.mpr hk, ha'⟩), ha', mt (hreach k).mpr hr⟩

/-- Two passes without grace, the clock past `T` at the second, over a store whose
tombstones date from `T` at the latest.  They succeed; the objects left are those some live
ref reaches and the member objects above the least head of the refs on their lineage under
an epoch not older than their least, each as it was; and the tombstones left are of
objects of the second kind. -/
theorem gc_twice_exact {env : Env} {w : World} {T i j fuel : Nat} (htidy : Tidy w.view)
    (hres : w.Resolves) (hstones : ∀ k t, w.stone k = some t → t ≤ T)
    (hfuel : 2 * (w.refs.keys.length + w.view.based.length) < fuel) :
    (gc env i 0 fuel).Alone (Timed env (· ≤ T)) (fun r w₁ => r = .ok () ∧
      ∀ clock, (gc env j 0 fuel).Alone (Timed env (T < ·)) (fun r w₂ => r = .ok () ∧
        w₂.refs = w.refs ∧
        (∀ k, k ∈ w₂.objs ↔ w.Reaches k ∨ k ∈ w.objs ∧ w.AboveHeads k) ∧
        (∀ k, k ∈ w₂.objs → w₂.objs.lookup k = w.objs.lookup k) ∧
        ∀ k t, w₂.stone k = some t → k ∈ w₂.objs ∧ w.AboveHeads k ∧ ¬ w.Reaches k)
        { w₁ with clock }) w := by
  obtain ⟨m, hm, hreach, habove⟩ := hres.mark
  refine (gc_alone hm hfuel).mono fun r w₁ hr => ⟨hr.1, fun clock => ?_⟩
  obtain ⟨⟨ks, hks, hdrop⟩, hall, hstones₁⟩ := hr.2.first hreach habove hstones
  obtain ⟨w₀, hw₀⟩ : ∃ w₀ : World, w₀ = { w₁ with clock } := ⟨_, rfl⟩
  have hrefs₀ : w₀.refs = w.refs := by rw [hw₀]; exact hr.2.refs
  have hobjs₀ : w₀.objs = w.objs.drop ks := by rw [hw₀]; exact hks
  have hstone₀ (k : DataKey) : w₀.stone k = w₁.stone k := by rw [hw₀]; rfl
  -- The second pass finds a store that reaches the same.
  obtain ⟨hres₀, hreach₀⟩ := hres.drop htidy hrefs₀ hobjs₀ fun k hk hr =>
    (hdrop k hk hr.mem).1 hr
  have habove₀ (k : DataKey) : w₀.AboveHeads k ↔ w.AboveHeads k :=
    World.AboveHeads.congr hrefs₀
  obtain ⟨m', hm', hmark, hheads⟩ := hres₀.mark
  have hbased : w₀.view.based.length ≤ w.view.based.length := by
    rw [World.view, World.view, hobjs₀]
    exact (Objects.keys_drop.filterMap _).length_le
  have hfuel₀ : 2 * (w₀.refs.keys.length + w₀.view.based.length) < fuel := by
    rw [hrefs₀]
    omega
  rw [← hw₀]
  refine (gc_alone hm' hfuel₀).mono fun r w₂ hr₂ => ⟨hr₂.1, hr₂.2.refs.trans hrefs₀, ?_⟩
  obtain ⟨hobjs, hsame, hstones₂⟩ := hr₂.2.second hmark hheads
    (fun k hk hr => by
      rw [hstone₀]
      exact hall k (by rw [hks]; rw [hobjs₀] at hk; exact hk) (mt (hreach₀ k).mpr hr))
    fun k t ht => hstones₁ k t ((hstone₀ k).symm.trans ht)
  refine ⟨fun k => ?_, fun k hk => ?_, fun k t ht => ?_⟩
  · rw [hobjs, hreach₀, habove₀, hobjs₀, Objects.mem_drop]
    constructor
    · exact Or.imp_right fun h => ⟨h.1.1, h.2⟩
    · exact Or.imp_right fun h => ⟨⟨h.1, fun hk => (hdrop k hk h.1).2 h.2⟩, h.2⟩
  · rw [hsame k hk, hobjs₀, Objects.lookup_drop, if_neg]
    intro hkd
    rcases (hobjs k).mp hk with hr | ⟨hk, -⟩
    · exact (hdrop k hkd ((hreach₀ k).mp hr).mem).1 ((hreach₀ k).mp hr)
    · rw [hobjs₀, Objects.mem_drop] at hk
      exact hk.2 hkd
  · obtain ⟨hk, ha, hr⟩ := hstones₂ k t ht
    exact ⟨hk, (habove₀ k).mp ha, mt (hreach₀ k).mpr hr⟩

def gcTwice (w : World) (fuel : Nat) : World :=
  let first := ((gc .bucket 0 0 fuel).exec { Oracle.fine with num := 0 } w).2
  ((gc .bucket 1 0 fuel).exec { Oracle.fine with num := 1 } { first with clock := 1 }).2

theorem gcTwice_of_alone {Q : World → Prop}
    (h : (gc .bucket 0 0 fuel).Alone (Timed .bucket (· ≤ 0)) (fun r w₁ => r = .ok () ∧
      ∀ clock, (gc .bucket 1 0 fuel).Alone (Timed .bucket (0 < ·)) (fun r w₂ => r = .ok () ∧ Q w₂)
        { w₁ with clock }) w) : Q (gcTwice w fuel) := by
  have hfirst := h.exec (o := { Oracle.fine with num := 0 }) fun _ => ⟨rfl, le_rfl⟩
  have hsecond := (hfirst.2 1).exec (o := { Oracle.fine with num := 1 })
    fun _ => ⟨rfl, Nat.zero_lt_one⟩
  exact hsecond.2

def refAt (epoch head : Nat) : Ref :=
  ⟨0, epoch, head, epoch, ∅, false, none, none, none, none, false, false, none, ∅, none⟩

def snapshotsAt (refs : List (String × Ref)) (objs : List (Nat × Nat)) : World :=
  { World.empty with
    refs := refs.foldr (fun r m => m.insert ⟨"db", r.1⟩ r.2) ∅
    objs := objs.foldr (fun o m => m.insert (.snapshot 0 o.1 o.2)
      (.snapshot ⟨o.2, ⟨512, [⟨512, 1⟩]⟩⟩)) ∅ }

variable {refs : List (String × Ref)} {objs : List (Nat × Nat)}

theorem snapshotsAt_key (h : k ∈ (snapshotsAt refs objs).objs) : ∃ e t, k = .snapshot 0 e t := by
  induction objs with
  | nil => simp [snapshotsAt] at h
  | cons o objs ih =>
    rcases (mem_insert _).mp h with rfl | h
    · exact ⟨_, _, rfl⟩
    · exact ih h

theorem snapshotsAt_base : (snapshotsAt refs objs).view.base l = .ok none := by
  refine Objects.base_ok_none.mpr (lookup_eq_none.mpr fun h => ?_)
  obtain ⟨e, t, hk⟩ := snapshotsAt_key h
  cases hk

theorem snapshotsAt_tidy : Tidy (snapshotsAt refs objs).view where
  single h hm hs := by
    cases h
    obtain ⟨k, o, hk, -, hp⟩ := Objects.mem_members.mp hm
    have hmem : k ∈ (snapshotsAt refs objs).objs := lookup_isSome.mp (by simp [hk])
    obtain ⟨e, t, rfl⟩ := snapshotsAt_key hmem
    cases hp
    cases hs
  above h hb _ := by
    rw [snapshotsAt_base] at hb
    cases hb

theorem snapshotsAt_resolves (h : ∀ r ∈ refs, ∀ t ∈ r.2.txids,
      ((chain (snapshotsAt refs objs).view r.2.lineage t).toOption).isSome) :
    (snapshotsAt refs objs).Resolves := by
  intro b r hb
  have hmem : ∃ r' ∈ refs, r'.2 = r := by
    clear h
    induction refs with
    | nil => simp [snapshotsAt] at hb
    | cons r' refs ih =>
      by_cases heq : b = ⟨"db", r'.1⟩
      · subst heq
        have : some r'.2 = some r := by simpa [snapshotsAt] using hb
        exact ⟨r', mem_cons_self, Option.some.inj this⟩
      · obtain ⟨r'', hr'', h⟩ := ih (by simpa [snapshotsAt, lookup_insert_ne heq] using hb)
        exact ⟨r'', mem_cons_of_mem _ hr'', h⟩
  obtain ⟨r', hr', rfl⟩ := hmem
  refine ⟨⟨[], ?_⟩, fun t ht => ?_⟩
  · rw [baseSpine, baseSpineFrom, snapshotsAt_base]
  · have := h r' hr' t ht
    cases hc : chain (snapshotsAt refs objs).view r'.2.lineage t with
    | error e => simp [hc, Except.toOption] at this
    | ok c => exact ⟨c, rfl⟩

/-- The main branch at head 1 under epoch 3; above it an orphan of an older epoch, and one
a writer may be about to commit. -/
def fencedStore : World := snapshotsAt [("main", refAt 3 1)] [(1, 1), (2, 2), (3, 2)]

theorem gc_twice_exact_fenced : DataKey.snapshot 0 2 2 ∈ fencedStore.objs ∧
      DataKey.snapshot 0 2 2 ∉ (gcTwice fencedStore 9).objs ∧
      ∀ k, k ∈ (gcTwice fencedStore 9).objs ↔
        fencedStore.Reaches k ∨ k ∈ fencedStore.objs ∧ fencedStore.AboveHeads k := by
  have hres : fencedStore.Resolves := snapshotsAt_resolves (by decide)
  have hstones : ∀ k t, fencedStore.stone k = some t → t ≤ 0 := fun k t h => by
    simp [World.stone, fencedStore, snapshotsAt, World.empty] at h
  have hfuel : 2 * (fencedStore.refs.keys.length + fencedStore.view.based.length) < 9 := by decide
  have htwice := gcTwice_of_alone (gc_twice_exact snapshotsAt_tidy hres hstones hfuel)
  exact ⟨by decide, by decide +kernel, htwice.2.1⟩

/-- A member object above the head of a live ref on its lineage, under an epoch not older
than that same ref's. -/
def World.AboveHead (w : World) (k : DataKey) : Prop :=
  ∃ m, k.parseMember = some m ∧ ∃ b r, w.refs.lookup b = some r ∧ r.lineage = k.lineage ∧
    r.headTXID < m.maxTXID ∧ r.epoch ≤ m.epoch

/-- Two refs on one lineage: one below txid 2 under epoch 3, one at it under epoch 2. -/
def twoHeads : World :=
  snapshotsAt [("main", refAt 3 1), ("twin", refAt 2 2)] [(1, 1), (2, 2), (3, 2)]

/-- The sweep takes the least head and the least epoch each on its own, so it spares an
orphan that lies above no head of its epoch. -/
theorem gc_twice_spares_between_heads :
    ¬ ∀ (env : Env) (w : World) (T i j fuel : Nat), Tidy w.view → w.Resolves →
      (∀ k t, w.stone k = some t → t ≤ T) →
      2 * (w.refs.keys.length + w.view.based.length) < fuel →
      (gc env i 0 fuel).Alone (Timed env (· ≤ T)) (fun r w₁ => r = .ok () ∧
        ∀ clock, (gc env j 0 fuel).Alone (Timed env (T < ·)) (fun r w₂ => r = .ok () ∧
          ∀ k, k ∈ w₂.objs ↔ w.Reaches k ∨ k ∈ w.objs ∧ w.AboveHead k) { w₁ with clock }) w := by
  intro hall
  have hres : twoHeads.Resolves := snapshotsAt_resolves (by decide)
  have hstones : ∀ k t, twoHeads.stone k = some t → t ≤ 0 := fun k t h => by
    simp [World.stone, twoHeads, snapshotsAt, World.empty] at h
  have htwice := gcTwice_of_alone
    (hall .bucket twoHeads 0 0 1 9 snapshotsAt_tidy hres hstones (by decide))
  have hleft : DataKey.snapshot 0 2 2 ∈ (gcTwice twoHeads 9).objs := by decide +kernel
  have hrefs {b : BranchId} {r : Ref} (hb : twoHeads.refs.lookup b = some r) :
      r = refAt 3 1 ∨ r = refAt 2 2 := by
    have hmem := mem_lookup_iff.mp hb
    have hentries : twoHeads.refs.entries =
        [⟨⟨"db", "main"⟩, refAt 3 1⟩, ⟨⟨"db", "twin"⟩, refAt 2 2⟩] := by rfl
    rw [hentries] at hmem
    simp at hmem
    tauto
  obtain ⟨m, hm, hreach, -⟩ := hres.mark
  have hmark : reachableObjectsAndHeads twoHeads.view .base .empty twoHeads.liveRefs =
      .ok ⟨[.snapshot 0 1 1, .snapshot 0 3 2], twoHeads.liveRefs.foldl noteHead ∅⟩ := rfl
  cases hmark.symm.trans hm
  rcases (htwice (.snapshot 0 2 2)).mp hleft with hr | ⟨-, m, hm, b, r, hb, -, hlt, hle⟩
  · exact absurd ((hreach _).mpr hr) (by decide)
  · cases hm
    rcases hrefs hb with rfl | rfl
    · exact absurd hle (by decide)
    · exact absurd hlt (by decide)

end Offshoot
