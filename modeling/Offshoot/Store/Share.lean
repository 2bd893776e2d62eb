import Mathlib.Logic.Relation
import Offshoot.Store.ChainSound

/-!
# Sharing through a base pointer

A fork, rollback or promote that shares gives its fresh lineage no object but a base
pointer.  The pointer names not the lineage it was made from but the one `collapseBase`
finds, past every lineage that only passes the txid on to its own base.  In a store
whose base pointers form no cycle the resolver cannot tell the difference, at that txid
or below, and lineages made one from another at the same txid all get the same pointer.
-/

namespace Offshoot

open List

variable {κ : Type} {v v' : View κ} {l l' start : Lineage} {b bp : BasePointer} {t txid fuel : Nat}
  {seen : List Lineage}
variable {m : Lineage}

def View.Parent (v : View κ) (l l' : Lineage) : Prop :=
  ∃ b, v.base l = .ok (some b) ∧ b.lineage = l'

def View.Acyclic (v : View κ) : Prop := ∀ l, ¬ Relation.TransGen v.Parent l l

/-- The walk from the lineages seen has come to `l`. -/
def View.Leads (v : View κ) (seen : List Lineage) (l : Lineage) : Prop :=
  ∀ s ∈ seen, Relation.ReflTransGen v.Parent s l

theorem View.Leads.singleton : v.Leads [l] l := fun s hs => by
  rw [mem_singleton.mp hs]

theorem View.Leads.step (h : v.Leads seen l) (hb : v.base l = .ok (some b)) :
    v.Leads (b.lineage :: seen) b.lineage := by
  intro s hs
  rcases mem_cons.mp hs with rfl | hs
  · exact .refl
  · exact (h s hs).tail ⟨b, hb, rfl⟩

theorem View.Acyclic.not_mem (hv : v.Acyclic) (h : v.Leads seen l)
    (hb : v.base l = .ok (some b)) : b.lineage ∉ seen := fun hmem =>
  hv b.lineage (.tail' (h b.lineage hmem) ⟨b, hb, rfl⟩)

/-! ## The lineages seen do not matter -/

theorem chainFrom_seen (hv : v.Acyclic) (h : v.Leads seen l) :
    chainFrom v fuel l t seen = chainFrom v fuel l t [l] := by
  induction fuel generalizing l t seen with
  | zero => rfl
  | succ fuel ih =>
    rw [chainFrom, chainFrom]
    rcases hbase : v.base l with e | _ | b
    · rfl
    · rfl
    · have hrec (u : Nat) : chainFrom v fuel b.lineage u (b.lineage :: seen) =
          chainFrom v fuel b.lineage u [b.lineage, l] := by
        rw [ih (h.step hbase), ih (View.Leads.singleton.step hbase)]
      simp only [hv.not_mem h hbase, hv.not_mem .singleton hbase, if_false, hrec]

theorem baseSpineFrom_seen {start' : Lineage} (hv : v.Acyclic) (h : v.Leads seen l) :
    baseSpineFrom v start fuel l seen = baseSpineFrom v start' fuel l [l] := by
  induction fuel generalizing l seen start with
  | zero => rfl
  | succ fuel ih =>
    rw [baseSpineFrom, baseSpineFrom]
    rcases hbase : v.base l with e | _ | b
    · rfl
    · rfl
    · have hrec : baseSpineFrom v start fuel b.lineage (b.lineage :: seen) =
          baseSpineFrom v start' fuel b.lineage [b.lineage, l] := by
        rw [ih (h.step hbase), ih (View.Leads.singleton.step hbase)]
      simp only [hv.not_mem h hbase, hv.not_mem .singleton hbase, if_false, hrec]

/-- At or below its fork point a lineage resolves as its base does. -/
theorem chain_through (hv : v.Acyclic) (hb : v.base l = .ok (some b)) (ht : t ≤ b.txid) :
    chain v l t = chain v b.lineage t := by
  have hnew : b.lineage ∉ [l] := hv.not_mem .singleton hb
  have hopen := View.open_card_lt hb mem_cons_self hnew
  have hlt := v.open_singleton_card_lt l
  calc chain v l t
      = chainFrom v v.based.length b.lineage t [b.lineage, l] := by
        rw [chain, chainFrom, hb]
        simp only [hnew, if_false, ht, if_true]
    _ = chainFrom v (v.based.length + 1) b.lineage t [b.lineage, l] :=
        (chainFrom_stable mem_cons_self (by omega) 1).symm
    _ = chain v b.lineage t := chainFrom_seen hv (View.Leads.singleton.step hb)

theorem baseSpine_step (hv : v.Acyclic) (hb : v.base l = .ok (some b)) :
    baseSpine v l = (baseSpine v b.lineage).map (b.lineage :: ·) := by
  have hnew : b.lineage ∉ [l] := hv.not_mem .singleton hb
  have hopen := View.open_card_lt hb mem_cons_self hnew
  have hlt := v.open_singleton_card_lt l
  have hrest : baseSpineFrom v l v.based.length b.lineage [b.lineage, l] =
      baseSpine v b.lineage := by
    rw [← baseSpineFrom_stable mem_cons_self (by omega) 1]
    exact baseSpineFrom_seen hv (View.Leads.singleton.step hb)
  rw [baseSpine, baseSpineFrom, hb]
  simp only [hnew, if_false, hrest]

/-! ## The lineage a pointer should name -/

/-- `m` is where the walk from `l` stops: it owns the txid or has no base. -/
inductive Collapses (v : View κ) (txid : Nat) : Lineage → Lineage → Prop
  | root {l : Lineage} : v.base l = .ok none → Collapses v txid l l
  | owns {l : Lineage} {b : BasePointer} : v.base l = .ok (some b) → b.txid < txid →
      Collapses v txid l l
  | through {l : Lineage} {b : BasePointer} {m : Lineage} : v.base l = .ok (some b) →
      txid ≤ b.txid → Collapses v txid b.lineage m → Collapses v txid l m

theorem collapses_of_collapseBaseFrom (h : collapseBaseFrom v start txid fuel l seen = .ok m) :
    Collapses v txid l m := by
  induction fuel generalizing l seen with
  | zero => cases h
  | succ fuel ih =>
    rw [collapseBaseFrom] at h
    split at h
    · cases h
    · rename_i hbase
      cases h
      exact .root hbase
    rename_i b hbase
    split at h
    · rename_i hlt
      cases h
      exact .owns hbase hlt
    rename_i hle
    split at h
    · cases h
    · exact .through hbase (Nat.not_lt.mp hle) (ih h)

theorem Collapses.collapseBaseFrom (h : Collapses v txid l m) (hv : v.Acyclic)
    (hl : v.Leads seen l) (hseen : l ∈ seen) (hfuel : (v.open l seen).card < fuel) :
    Offshoot.collapseBaseFrom v start txid fuel l seen = .ok m := by
  obtain ⟨fuel, rfl⟩ : ∃ n, fuel = n + 1 := ⟨fuel - 1, by omega⟩
  induction h generalizing fuel seen with
  | root hbase => simp [Offshoot.collapseBaseFrom, hbase]
  | owns hbase hlt => simp [Offshoot.collapseBaseFrom, hbase, hlt]
  | @through l b m hbase hle _ ih =>
    have hnew := hv.not_mem hl hbase
    have hopen := View.open_card_lt hbase hseen hnew
    rw [Offshoot.collapseBaseFrom, hbase]
    simp only [Nat.not_lt.mpr hle, hnew, if_false]
    obtain ⟨n, rfl⟩ : ∃ n, fuel = n + 1 := ⟨fuel - 1, by omega⟩
    exact ih (hl.step hbase) mem_cons_self n (by omega)

theorem collapseBase_ok_iff (hv : v.Acyclic) :
    collapseBase v l txid = .ok m ↔ Collapses v txid l m :=
  ⟨collapses_of_collapseBaseFrom, fun h =>
    h.collapseBaseFrom hv .singleton mem_cons_self (v.open_singleton_card_lt l)⟩

/-- A resolution that succeeds has read every base pointer the collapse reads. -/
theorem collapses_of_chainFrom {ms : List (ChainMember κ)}
    (h : chainFrom v fuel l txid seen = .ok ms) : ∃ m, Collapses v txid l m := by
  induction fuel generalizing l seen ms with
  | zero => cases h
  | succ fuel ih =>
    rw [chainFrom] at h
    split at h
    · cases h
    · exact ⟨l, .root ‹_›⟩
    rename_i b hbase
    split at h
    · cases h
    split at h
    · rename_i hle
      obtain ⟨m, hm⟩ := ih h
      exact ⟨m, .through hbase hle hm⟩
    · rename_i hlt
      exact ⟨l, .owns hbase (Nat.not_le.mp hlt)⟩

theorem Collapses.chain_eq (h : Collapses v txid l m) (hv : v.Acyclic) (ht : t ≤ txid) :
    chain v l t = chain v m t := by
  induction h with
  | root _ => rfl
  | owns _ _ => rfl
  | through hbase hle _ ih => rw [chain_through hv hbase (ht.trans hle), ih]

theorem Collapses.idem (h : Collapses v txid l m) : Collapses v txid m m := by
  induction h with
  | root hbase => exact .root hbase
  | owns hbase hlt => exact .owns hbase hlt
  | through _ _ _ ih => exact ih

theorem Collapses.unique {m' : Lineage} (h : Collapses v txid l m) (h' : Collapses v txid l m') :
    m = m' := by
  induction h with
  | root hbase =>
    cases h' with
    | root _ => rfl
    | owns _ _ => rfl
    | through hbase' _ _ => simp [hbase] at hbase'
  | owns hbase hlt =>
    cases h' with
    | root _ => rfl
    | owns _ _ => rfl
    | through hbase' hle _ =>
      obtain rfl : _ = _ := by simpa [hbase] using hbase'
      omega
  | through hbase hle _ ih =>
    cases h' with
    | root hbase' => simp [hbase] at hbase'
    | owns hbase' hlt =>
      obtain rfl : _ = _ := by simpa [hbase] using hbase'
      omega
    | through hbase' _ h' =>
      obtain rfl : _ = _ := by simpa [hbase] using hbase'
      exact ih h'

/-- Collapsing leaves a spine no longer. -/
theorem Collapses.spine {spine : List Lineage} (h : Collapses v txid l m) (hv : v.Acyclic)
    (hs : baseSpine v l = .ok spine) :
    ∃ rest, baseSpine v m = .ok rest ∧ rest.length ≤ spine.length ∧
      (m ≠ l → rest.length < spine.length) := by
  induction h generalizing spine with
  | root _ => exact ⟨spine, hs, le_rfl, fun h => absurd rfl h⟩
  | owns _ _ => exact ⟨spine, hs, le_rfl, fun h => absurd rfl h⟩
  | @through l b m hbase _ _ ih =>
    rw [baseSpine_step hv hbase] at hs
    cases hb : baseSpine v b.lineage with
    | error e => simp [hb, Except.map] at hs
    | ok tail =>
      obtain rfl : b.lineage :: tail = spine := by simpa [hb, Except.map] using hs
      obtain ⟨rest, hrest, hle, -⟩ := ih hb
      exact ⟨rest, hrest, by simp; omega, fun _ => by simp; omega⟩

/-! ## A fresh lineage -/

structure View.Fresh (v : View κ) (f : Lineage) : Prop where
  members : v.members f = .ok []
  base : v.base f = .ok none
  unnamed : ∀ {l}, ¬ v.Parent l f

structure View.Shares (v : View κ) (f : Lineage) (bp : BasePointer) (v' : View κ) : Prop where
  new : v'.base f = .ok (some bp)
  base : ∀ l, l ≠ f → v'.base l = v.base l
  members : ∀ l, v'.members l = v.members l

theorem View.Fresh.chain_ne (hf : v.Fresh f) {ms : List (ChainMember κ)} :
    chain v f t ≠ .ok ms := by
  intro h
  rw [chain, chainFrom, hf.base] at h
  simp only [chainSelf, hf.members] at h
  cases h

section Fresh

variable {f : Lineage} (hf : v.Fresh f) (hs : v.Shares f bp v') (hne : bp.lineage ≠ f)

include hf hs hne

theorem View.Shares.transGen (h : Relation.TransGen v'.Parent l l') :
    l' ≠ f ∧ (l = f ∨ Relation.TransGen v.Parent l l') := by
  have hedge {a b : Lineage} (h : v'.Parent a b) : b ≠ f ∧ (a = f ∨ v.Parent a b) := by
    obtain ⟨p, hp, rfl⟩ := h
    by_cases ha : a = f
    · subst ha
      rw [hs.new] at hp
      obtain rfl : bp = p := by simpa using hp
      exact ⟨hne, .inl rfl⟩
    · rw [hs.base a ha] at hp
      exact ⟨fun h => hf.unnamed ⟨p, hp, h⟩, .inr ⟨p, hp, rfl⟩⟩
  induction h with
  | single h => exact ⟨(hedge h).1, (hedge h).2.imp_right .single⟩
  | tail _ h ih =>
    exact ⟨(hedge h).1, ih.2.imp_right fun hl => hl.tail ((hedge h).2.resolve_left ih.1)⟩

theorem View.Shares.acyclic (hv : v.Acyclic) : v'.Acyclic := by
  intro l h
  obtain ⟨hl, hl' | hl'⟩ := hs.transGen hf hne h
  · exact hl hl'
  · exact hv l hl'

omit hne in
theorem View.Shares.chainFrom_eq (hl : l ≠ f) :
    chainFrom v' fuel l t seen = chainFrom v fuel l t seen := by
  induction fuel generalizing l t seen with
  | zero => rfl
  | succ fuel ih =>
    rw [chainFrom, chainFrom, hs.base l hl]
    rcases hbase : v.base l with e | _ | b
    · rfl
    · simp only [chainSelf, hs.members]
    · have hrec (u : Nat) : chainFrom v' fuel b.lineage u (b.lineage :: seen) =
          chainFrom v fuel b.lineage u (b.lineage :: seen) :=
        ih fun h => hf.unnamed ⟨b, hbase, h⟩
      simp only [hrec, hs.members]

omit hne in
theorem View.Shares.chain_eq (hl : l ≠ f) : chain v' l t = chain v l t := by
  rw [← chainFrom_of_le (le_max_left (v'.based.length + 1) (v.based.length + 1)),
    ← chainFrom_of_le (v := v) (le_max_right (v'.based.length + 1) (v.based.length + 1))]
  exact hs.chainFrom_eq hf hl

theorem View.Shares.chain_new (hv : v.Acyclic) (ht : t ≤ bp.txid) :
    chain v' f t = chain v bp.lineage t := by
  rw [chain_through (hs.acyclic hf hne hv) hs.new ht, hs.chain_eq hf hne]

omit hne in
theorem View.Shares.collapses (h : Collapses v txid l m) (hl : l ≠ f) : Collapses v' txid l m := by
  induction h with
  | root hbase => exact .root ((hs.base _ hl).trans hbase)
  | owns hbase hlt => exact .owns ((hs.base _ hl).trans hbase) hlt
  | through hbase hle _ ih =>
    exact .through ((hs.base _ hl).trans hbase) hle (ih fun h => hf.unnamed ⟨_, hbase, h⟩)

end Fresh

/-! ## Sharing again and again -/

/-- One shared fork or rollback at `txid`, of a lineage of the list: the fresh lineage is
added to the list, and the only write is its base pointer. -/
inductive ShareStep (txid : Nat) : View κ × List Lineage → View κ × List Lineage → Prop
  | share {v v' : View κ} {ls : List Lineage} {l m f : Lineage} : l ∈ ls →
      collapseBase v l txid = .ok m → v.Fresh f → v.Shares f ⟨m, txid⟩ v' →
      ShareStep txid (v, ls) (v', f :: ls)

/-- What is known after shares that began with `l`: every pointer names the same lineage. -/
structure SharedFrom (l m : Lineage) (txid : Nat) (s : View κ × List Lineage) : Prop where
  acyclic : s.1.Acyclic
  resolves : ∃ ms, chain s.1 m txid = .ok ms
  mem : l ∈ s.2
  collapses : ∀ l' ∈ s.2, Collapses s.1 txid l' m
  pointer : ∀ l' ∈ s.2, l' = l ∨ s.1.base l' = .ok (some ⟨m, txid⟩)

variable {s : View κ × List Lineage}

theorem SharedFrom.step {s' : View κ × List Lineage} (h : SharedFrom l m txid s)
    (hstep : ShareStep txid s s') : SharedFrom l m txid s' := by
  cases hstep with
  | @share v v' ls l' m' f hl' hm hf hs =>
    obtain ⟨ms, hms⟩ := h.resolves
    obtain rfl : m' = m := (collapses_of_collapseBaseFrom hm).unique (h.collapses l' hl')
    have hne : m' ≠ f := fun heq => hf.chain_ne (heq ▸ hms)
    have hmem {l'' : Lineage} (hl'' : l'' ∈ ls) : l'' ≠ f := by
      rintro rfl
      have := (h.collapses l'' hl'').chain_eq h.acyclic le_rfl
      exact hf.chain_ne (this.trans hms)
    refine ⟨hs.acyclic hf hne h.acyclic, ⟨ms, (hs.chain_eq hf hne).trans hms⟩,
      mem_cons_of_mem _ h.mem, ?_, ?_⟩
    · intro l'' hl''
      rcases mem_cons.mp hl'' with rfl | hl''
      · exact .through hs.new le_rfl (hs.collapses hf (h.collapses l' hl').idem hne)
      · exact hs.collapses hf (h.collapses l'' hl'') (hmem hl'')
    · intro l'' hl''
      rcases mem_cons.mp hl'' with rfl | hl''
      · exact .inr hs.new
      · exact (h.pointer l'' hl'').imp_right fun hb => (hs.base l'' (hmem hl'')).trans hb

theorem SharedFrom.run {s' : View κ × List Lineage} (h : SharedFrom l m txid s)
    (hrun : Relation.ReflTransGen (ShareStep txid) s s') : SharedFrom l m txid s' := by
  induction hrun with
  | refl => exact h
  | tail _ hstep ih => exact ih.step hstep

/-- The lineages made have one spine, and it is at most one longer than that of the lineage
they were made from; no longer if that one passes the txid on itself. -/
theorem SharedFrom.spine (h : SharedFrom l m txid s) (hf : s.1.base f = .ok (some ⟨m, txid⟩))
    {spine : List Lineage} (hspine : baseSpine s.1 l = .ok spine) :
    ∃ rest, baseSpine s.1 f = .ok (m :: rest) ∧ rest.length ≤ spine.length ∧
      (m ≠ l → (m :: rest).length ≤ spine.length) := by
  obtain ⟨rest, hrest, hle, hlt⟩ := (h.collapses l h.mem).spine h.acyclic hspine
  refine ⟨rest, ?_, hle, fun hne => ?_⟩
  · rw [baseSpine_step h.acyclic hf, hrest]
    rfl
  · have := hlt hne
    simp only [length_cons]
    omega

/-- Sharing is the same as the source.  In a store without base cycles, where `l` resolves
at `txid`: the lineage the collapse names resolves as `l` does at every txid up to `txid`;
so does a fresh lineage whose base pointer names it; and all the lineages that any
sequence of shared forks and rollbacks at `txid` makes from `l` have one and the same base
spine, which is at most one longer than the spine of `l`, and no longer if `l` is itself
such a lineage. -/
theorem share_resolves_as_source {v : View κ} (hv : v.Acyclic) {l : Lineage} {txid : Nat}
    {ms : List (ChainMember κ)} (hc : chain v l txid = .ok ms) :
    ∃ m, collapseBase v l txid = .ok m ∧ (∀ t ≤ txid, chain v l t = chain v m t) ∧
      (∀ f v', v.Fresh f → v.Shares f ⟨m, txid⟩ v' → ∀ t ≤ txid,
        chain v' f t = chain v l t ∧ chain v' l t = chain v l t) ∧
      ∀ v' ls, Relation.ReflTransGen (ShareStep txid) (v, [l]) (v', ls) →
        (∀ f ∈ ls, ∀ g ∈ ls, f ≠ l → g ≠ l → baseSpine v' f = baseSpine v' g) ∧
        ∀ f ∈ ls, f ≠ l → ∀ spine, baseSpine v' l = .ok spine → ∃ rest,
          baseSpine v' f = .ok (m :: rest) ∧ rest.length ≤ spine.length ∧
          (m ≠ l → (m :: rest).length ≤ spine.length) := by
  obtain ⟨m, hm⟩ := collapses_of_chainFrom hc
  have hms : chain v m txid = .ok ms := (hm.chain_eq hv le_rfl).symm.trans hc
  refine ⟨m, (collapseBase_ok_iff hv).mpr hm, fun t ht => hm.chain_eq hv ht, ?_, ?_⟩
  · intro f v' hf hs t ht
    have hmf : m ≠ f := fun heq => hf.chain_ne (heq ▸ hms)
    have hlf : l ≠ f := fun heq => hf.chain_ne (heq ▸ hc)
    exact ⟨(hs.chain_new hf hmf hv ht).trans (hm.chain_eq hv ht).symm, hs.chain_eq hf hlf⟩
  · intro v' ls hrun
    have hfrom : SharedFrom l m txid (v, [l]) := by
      refine ⟨hv, ⟨ms, hms⟩, mem_cons_self, fun l' hl' => ?_,
        fun l' hl' => .inl (mem_singleton.mp hl')⟩
      rw [mem_singleton.mp hl']
      exact hm
    have h := hfrom.run hrun
    have hpointer (f : Lineage) (hf : f ∈ ls) (hfl : f ≠ l) :
        v'.base f = .ok (some ⟨m, txid⟩) := (h.pointer f hf).resolve_left hfl
    refine ⟨fun f hf g hg hfl hgl => ?_, fun f hf hfl spine hspine => ?_⟩
    · rw [baseSpine_step h.acyclic (hpointer f hf hfl),
        baseSpine_step h.acyclic (hpointer g hg hgl)]
    · exact h.spine (hpointer f hf hfl) hspine

/-- A lineage `1` with two txids, and a lineage `2` that was shared from it at the second
and has no object of its own. -/
def sharedView : View String where
  base l := if l = 2 then .ok (some ⟨1, 2⟩) else .ok none
  members l := if l = 1 then .ok [⟨"a", true, 0, 1, 1⟩, ⟨"b", false, 2, 2, 3⟩] else .ok []
  based := [2]
  mem_based := by
    intro l b h
    split at h
    · exact mem_singleton.mpr ‹_›
    · cases h

theorem sharedView_parent (h : sharedView.Parent l l') : l = 2 ∧ l' = 1 := by
  obtain ⟨b, hb, rfl⟩ := h
  simp only [sharedView] at hb
  split at hb
  · obtain rfl : (⟨1, 2⟩ : BasePointer) = b := by simpa using hb
    exact ⟨‹_›, rfl⟩
  · cases hb

theorem sharedView_acyclic : sharedView.Acyclic := by
  intro l h
  obtain ⟨m, -, hm⟩ := Relation.TransGen.tail'_iff.mp h
  obtain ⟨m', hm', -⟩ := Relation.TransGen.head'_iff.mp h
  have hl := (sharedView_parent hm).2
  have hl' := (sharedView_parent hm').1
  exact absurd (hl.symm.trans hl') (by decide)

theorem sharedView_fresh : sharedView.Fresh 3 where
  members := rfl
  base := rfl
  unnamed h := absurd (sharedView_parent h).2 (by decide)

/-- A fork of the shared lineage points past it. -/
theorem share_resolves_as_source_twice : collapseBase sharedView 2 2 = .ok 1 ∧
      (∀ t ≤ 2, chain sharedView 2 t = chain sharedView 1 t) ∧
      ∀ v', sharedView.Shares 3 ⟨1, 2⟩ v' →
        chain v' 3 2 = .ok [⟨"a", true, 0, 1, 1⟩, ⟨"b", false, 2, 2, 3⟩] := by
  have hc : chain sharedView 2 2 = .ok [⟨"a", true, 0, 1, 1⟩, ⟨"b", false, 2, 2, 3⟩] := rfl
  obtain ⟨m, hm, hsame, hfresh, -⟩ := share_resolves_as_source sharedView_acyclic hc
  have hone : collapseBase sharedView 2 2 = .ok 1 := rfl
  obtain rfl : m = 1 := Except.ok.inj (hm.symm.trans hone)
  exact ⟨hone, hsame, fun v' hs => ((hfresh 3 v' sharedView_fresh hs 2 le_rfl).1).trans hc⟩

end Offshoot
