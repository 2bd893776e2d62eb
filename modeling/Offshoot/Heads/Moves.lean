import Offshoot.System.Bases

/-!
# Moves of the head

On any backend, the head of a lineage moves one txid at a time, under the lease of the
epoch.  A move names the object uploaded for it.  A move left pending can land as long
as its lease is not over: once the epoch has passed or the lease was given back, the
record it was sent against does not come back.

So if no object is removed that a landed move names, or a pending one whose lease is
not over, then every object a landed move names stays in the store, and what else is
at its txid is of an older epoch.
-/

namespace Offshoot

open Conc Maps List

variable {env : Env} {w w' : World} {i j : Nat} {b : BranchId}
variable {l : Lineage}

namespace World

def Moved (w : World) (c : HeadCommit) : Prop :=
  ∃ i b op before r, Event.wrote i b op before (some r) ∈ w.log ∧ op.head = some c

/-- The lease of the epoch is over: a later epoch has begun, or the lease was given
back. -/
def Over (w : World) (l : Lineage) (e : Nat) : Prop :=
  ∃ b r, w.Version b r ∧ r.lineage = l ∧ (e < r.epoch ∨ r.epoch = e ∧ r.leaseHolder = none)

/-- No head of the lineage has been below the txid. -/
def Origin (w : World) (l : Lineage) (t : Nat) : Prop :=
  ∀ b r, w.Version b r → r.lineage = l → t ≤ r.headTXID

theorem Over.mono {e : Nat} (h : w.Over l e) (hlog : w.log ⊆ w'.log) : w'.Over l e := by
  obtain ⟨b, r, hv, hr⟩ := h
  exact ⟨b, r, hv.mono hlog, hr⟩

end World

variable {c : HeadCommit}

theorem Unwritten.moved (h : Unwritten w w') : w'.Moved c ↔ w.Moved c := by
  obtain ⟨news, hlog, hnews⟩ := h.log
  simp only [World.Moved, hlog, mem_append]
  constructor
  · rintro ⟨i, b, op, before, r, hm | hm, hc⟩
    · exact absurd rfl (hnews _ hm _ _ _ _ _)
    · exact ⟨i, b, op, before, r, hm, hc⟩
  · rintro ⟨i, b, op, before, r, hm, hc⟩
    exact ⟨i, b, op, before, r, .inr hm, hc⟩

theorem Wrote.moved {r : Ref} (h : Wrote w w' j b op (some r)) :
    w'.Moved c ↔ op.head = some c ∨ w.Moved c := by
  obtain ⟨news, hlog, hnews⟩ := h.log
  simp only [World.Moved, hlog, mem_append, mem_cons]
  constructor
  · rintro ⟨i, b', op', before, r', hm | heq | hm, hc⟩
    · obtain ⟨_, _, _, _, heq⟩ := hnews _ hm
      cases heq
    · cases heq
      exact .inl hc
    · exact .inr ⟨i, b', op', before, r', hm, hc⟩
  · rintro (hc | ⟨i, b', op', before, r', hm, hc⟩)
    · exact ⟨j, b, op, _, r, .inr (.inl rfl), hc⟩
    · exact ⟨i, b', op', before, r', .inr (.inr hm), hc⟩

theorem Wrote.moved_none (h : Wrote w w' j b op none) : w'.Moved c ↔ w.Moved c := by
  obtain ⟨news, hlog, hnews⟩ := h.log
  simp only [World.Moved, hlog, mem_append, mem_cons]
  constructor
  · rintro ⟨i, b', op', before, r', hm | heq | hm, hc⟩
    · obtain ⟨_, _, _, _, heq⟩ := hnews _ hm
      cases heq
    · cases heq
    · exact ⟨i, b', op', before, r', hm, hc⟩
  · rintro ⟨i, b', op', before, r', hm, hc⟩
    exact ⟨i, b', op', before, r', .inr (.inr hm), hc⟩

/-- A write that names no lineage keeps the head, or moves it by one under the lease of
the record it replaces. -/
theorem RefOp.head_cases {op : RefOp} {r r' : Ref} (hn : op.names = none)
    (h : op.apply (some r) = some (some r')) :
    op.head = none ∧ r'.headTXID = r.headTXID ∨
      ∃ c, op.head = some c ∧ c.ours r ∧ r'.headTXID = c.txid := by
  rcases op.plain_or with hp | ⟨c, hc⟩ | ⟨l, hl⟩
  · obtain ⟨_, hr, -, hhead, -⟩ := RefOp.plain_frame hp h
    cases hr
    exact .inl ⟨RefOp.plain_head hp, hhead⟩
  · obtain ⟨_, hr, hours, -, -, hhead, -⟩ := RefOp.head_frame hc h
    cases hr
    exact .inr ⟨c, hc, hours, hhead⟩
  · rw [hn] at hl
    cases hl

/-! ## The invariant -/

/-- What a move sent may rely on: its object is there as long as it can land. -/
def HeadReady (w : World) (_ : Nat) (_ : BranchId) (_ : Option Ref) (op : RefOp) : Prop :=
  ∀ c, op.head = some c → c.key.slot = some (c.lineage, c.epoch, c.txid) ∧
    w.Owner c.lineage c.epoch c.holder ∧ (c.key ∈ w.objs ∨ w.Over c.lineage c.epoch)

structure HeadInv (w : World) : Prop where
  /-- A lease that is on a ref is not over. -/
  fence : ∀ {b r}, w.refs.lookup b = some r → r.leaseHolder ≠ none → ¬ w.Over r.lineage r.epoch
  sent : Vouched HeadReady w
  slot : ∀ {c}, w.Moved c → c.key.slot = some (c.lineage, c.epoch, c.txid)
  owner : ∀ {c}, w.Moved c → w.Owner c.lineage c.epoch c.holder
  has : ∀ {c}, w.Moved c → c.key ∈ w.objs
  top : ∀ {c}, w.Moved c → ∃ b r, w.Version b r ∧ r.lineage = c.lineage ∧ c.txid ≤ r.headTXID
  next : ∀ {b b' r r'}, w.Version b r → w.Version b' r' → r'.lineage = r.lineage →
    r.headTXID < r'.headTXID → ∃ c, w.Moved c ∧ c.lineage = r.lineage ∧ c.txid = r.headTXID + 1
  epoch : ∀ {b r c}, w.Version b r → w.Moved c → c.lineage = r.lineage →
    r.headTXID < c.txid → r.epoch ≤ c.epoch
  point : ∀ {b r t e}, w.Version b r → r.Point t e → w.Origin r.lineage t ∨
    ∃ c, w.Moved c ∧ c.lineage = r.lineage ∧ c.txid = t ∧ c.epoch = e

theorem HeadInv.empty : HeadInv .empty where
  fence h := by simp [World.empty] at h
  sent _ _ _ _ _ h := by simp [World.empty] at h
  slot h := by simp [World.empty, World.Moved] at h
  owner h := by simp [World.empty, World.Moved] at h
  has h := by simp [World.empty, World.Moved] at h
  top h := by simp [World.empty, World.Moved] at h
  next h := by simp [World.empty, World.Version] at h
  epoch h := by simp [World.empty, World.Version] at h
  point h := by simp [World.empty, World.Version] at h

/-- No move of the head of `l` to `t` under epoch `e` has landed, and none can. -/
structure World.Spent (w : World) (l : Lineage) (e t : Nat) : Prop where
  moved : ∀ {c : HeadCommit}, w.Moved c → c.lineage = l → c.epoch = e → c.txid ≠ t
  sent : ∀ {j b op before after} {c : HeadCommit}, Pending.ref j b op before after ∈ w.pending →
    op.head = some c → c.lineage = l → c.epoch = e → c.txid = t → w.Over l e

/-- Holder `i` has had the lease of `l` at epoch `e` with `t` the next txid. -/
def World.Held (w : World) (i : Holder) (l : Lineage) (e t : Nat) : Prop :=
  ∃ b r, w.Version b r ∧ r.lineage = l ∧ r.epoch = e ∧ r.leaseHolder = some i ∧ r.headTXID + 1 = t

/-- What an act may remove: copies a lineage was prepared with, which are of its first
epoch, and what its thread has uploaded for a move that is not made. -/
def Act.clears (i : Nat) (w : World) : Act → Prop
  | drop k => ∀ l e t, k.slot = some (l, e, t) → e ≤ 1 ∨ w.Held i l e t ∧ w.Spent l e t
  | sweep .. => False
  | _ => True

variable {e : Nat}

theorem World.Held.mono {t : Nat} (h : w.Held i l e t) (hlog : w.log ⊆ w'.log) :
    w'.Held i l e t := by
  obtain ⟨b, r, hv, hr⟩ := h
  exact ⟨b, r, hv.mono hlog, hr⟩

theorem World.Held.owner {t : Nat} (h : w.Held i l e t) : w.Owner l e i := by
  obtain ⟨b, r, hv, hl, he, hh, -⟩ := h
  exact ⟨b, r, hv, hl, he, hh⟩

theorem RefsInv.epoch_owner (h : RefsInv env w) {x : Holder} (ho : w.Owner l e x) : 2 ≤ e := by
  obtain ⟨b, r, hv, -, rfl, hh⟩ := ho
  exact (h.epoch hv).2 (by simp [hh])

theorem Act.mem_objs {a : Act} {k : DataKey} (hk : k ∈ w.objs) :
    k ∈ (a.run i w).objs ∨ a = .drop k ∨ ∃ t, a = .sweep t k := by
  rcases a.objs_run (i := i) (w := w) with hobjs | ⟨k', o, hobjs, -⟩ | ⟨k', hobjs, hsrc⟩
  · exact .inl (hobjs ▸ hk)
  · rw [hobjs, World.putObj, AList.mem_insert]
    exact .inl (.inr hk)
  · by_cases hkk : k = k'
    · exact .inr (hkk ▸ hsrc)
    · rw [hobjs, World.dropObj, AList.mem_erase]
      exact .inl ⟨hkk, hk⟩

/-! ## One step -/

section Step

variable {op : RefOp} {r₁ : Ref}

/-- Where a record that was just written stands in its lineage. -/
structure Lands (w w' : World) (b : BranchId) (op : RefOp) (r₁ : Ref) : Prop where
  version : ∀ {b' r}, w'.Version b' r ↔ b' = b ∧ r₁ = r ∨ w.Version b' r
  moved : ∀ {c}, w'.Moved c ↔ op.head = some c ∨ w.Moved c
  from_or : op.names = some r₁.lineage ∧ ¬ w.Named r₁.lineage ∨
    ∃ r₀, w.refs.lookup b = some r₀ ∧ op.names = none ∧ r₀.Follows r₁
  apply : op.apply (w.refs.lookup b) = some (some r₁)

namespace Lands

variable (hl : Lands w w' b op r₁) (hr : RefsInv env w) (h : HeadInv w)

include hl

theorem old_of_named (hn : w.Named l) (hrl : r₁.lineage = l) :
    ∃ r₀, w.refs.lookup b = some r₀ ∧ op.names = none ∧ r₀.Follows r₁ :=
  hl.from_or.resolve_left fun hnew => hnew.2 (hrl ▸ hn)

theorem origin {t : Nat} (hr : RefsInv env w) (hn : w.Named l) (ho : w.Origin l t) :
    w'.Origin l t := by
  intro b' r hv hrl
  rcases hl.version.mp hv with ⟨rfl, rfl⟩ | hv
  · obtain ⟨r₀, hr₀, -, hf⟩ := hl.old_of_named hn hrl
    exact (ho _ r₀ (hr.current hr₀) (hf.lineage.symm.trans hrl)).trans hf.head
  · exact ho b' r hv hrl

include hr h

variable {b' : BranchId}

theorem fence (hr' : RefsInv env w')
    (hlook : ∀ b', w'.refs.lookup b' = if b' = b then some r₁ else w.refs.lookup b') {r : Ref}
    (hcur : w'.refs.lookup b' = some r) (hh : r.leaseHolder ≠ none) :
    ¬ w'.Over r.lineage r.epoch := by
  have hcur' := hcur
  rintro ⟨b'', v, hv, hvl, hover⟩
  rw [hlook] at hcur'
  split at hcur'
  · -- The new record is no older than any other of its lineage.
    cases hcur'
    obtain ⟨x, hx⟩ := Option.ne_none_iff_exists'.mp hh
    have hle := (hr'.latest hcur hv hvl).1
    obtain ⟨heq, hnone⟩ := hover.resolve_left (by omega)
    rcases hl.version.mp hv with ⟨rfl, rfl⟩ | hv
    · exact hh hnone
    obtain ⟨r₀, hr₀, -, hf⟩ := hl.old_of_named ⟨_, _, hv, hvl⟩ rfl
    have hle₀ := (hr.latest hr₀ hv (hvl.trans hf.lineage)).1
    rcases hf.holder x hx with hlt | ⟨heq₀, hx₀⟩
    · omega
    · refine h.fence hr₀ (by simp [hx₀]) ⟨b'', v, hv, hvl.trans hf.lineage, .inr ⟨?_, hnone⟩⟩
      omega
  · rename_i hb
    rcases hl.version.mp hv with ⟨rfl, rfl⟩ | hv
    · exact hb (hr'.branch (hr'.current hcur) (hl.version.mpr (.inl ⟨rfl, rfl⟩)) hvl.symm)
    · exact h.fence hcur' hh ⟨b'', v, hv, hvl, hover⟩

theorem next {b₁ b₂ : BranchId} {v₁ v₂ : Ref} (hv₁ : w'.Version b₁ v₁) (hv₂ : w'.Version b₂ v₂)
    (hvl : v₂.lineage = v₁.lineage) (hlt : v₁.headTXID < v₂.headTXID) :
    ∃ c, w'.Moved c ∧ c.lineage = v₁.lineage ∧ c.txid = v₁.headTXID + 1 := by
  have hlift : (∃ c, w.Moved c ∧ c.lineage = v₁.lineage ∧ c.txid = v₁.headTXID + 1) →
      ∃ c, w'.Moved c ∧ c.lineage = v₁.lineage ∧ c.txid = v₁.headTXID + 1 :=
    Exists.imp fun c hc => ⟨hl.moved.mpr (.inr hc.1), hc.2⟩
  rcases hl.version.mp hv₁ with ⟨rfl, rfl⟩ | hv₁
  · rcases hl.version.mp hv₂ with ⟨rfl, rfl⟩ | hv₂
    · exact absurd hlt (lt_irrefl _)
    · obtain ⟨r₀, hr₀, -, hf⟩ := hl.old_of_named ⟨_, _, hv₂, hvl⟩ rfl
      have := (hr.latest hr₀ hv₂ (hvl.trans hf.lineage)).2
      have := hf.head
      omega
  · rcases hl.version.mp hv₂ with ⟨rfl, rfl⟩ | hv₂
    · obtain ⟨r₀, hr₀, hn, hf⟩ := hl.old_of_named ⟨_, _, hv₁, hvl.symm⟩ rfl
      have hl₀ : r₀.lineage = v₁.lineage := hf.lineage.symm.trans hvl
      have hle := (hr.latest hr₀ hv₁ hl₀.symm).2
      rcases lt_or_ge v₁.headTXID r₀.headTXID with hlt' | hge
      · exact hlift (h.next hv₁ (hr.current hr₀) hl₀ hlt')
      -- The move that was just made is the next one.
      have happly := hl.apply
      rw [hr₀] at happly
      rcases RefOp.head_cases hn happly with ⟨-, heq⟩ | ⟨c, hc, hours, heq⟩
      · omega
      · obtain ⟨-, -, hcl, hct⟩ := HeadCommit.ours_iff.mp hours
        exact ⟨c, hl.moved.mpr (.inl hc), hcl.symm.trans hl₀, by omega⟩
    · exact hlift (h.next hv₁ hv₂ hvl hlt)

theorem epoch {v : Ref} {c : HeadCommit} (hv : w'.Version b' v) (hc : w'.Moved c)
    (hcl : c.lineage = v.lineage) (hlt : v.headTXID < c.txid) : v.epoch ≤ c.epoch := by
  rcases hl.moved.mp hc with hop | hc
  · have hn : op.names = none := RefOp.head_names hop
    obtain ⟨r₀, hr₀, -, hf⟩ := hl.from_or.resolve_left fun hnew => by simp [hn] at hnew
    have happly := hl.apply
    rw [hr₀] at happly
    obtain ⟨_, hr₀', hours, -, -, hhead, -⟩ := RefOp.head_frame hop happly
    cases hr₀'
    obtain ⟨-, hce, hcl₀, -⟩ := HeadCommit.ours_iff.mp hours
    rcases hl.version.mp hv with ⟨rfl, rfl⟩ | hv
    · omega
    · have := (hr.latest hr₀ hv (hcl.symm.trans hcl₀.symm)).1
      omega
  · rcases hl.version.mp hv with ⟨rfl, rfl⟩ | hv
    · obtain ⟨b₂, v₂, hv₂, hl₂, hle⟩ := h.top hc
      obtain ⟨r₀, hr₀, -, hf⟩ := hl.old_of_named ⟨b₂, v₂, hv₂, hl₂⟩ hcl.symm
      have := (hr.latest hr₀ hv₂ (hl₂.trans (hcl.trans hf.lineage))).2
      have := hf.head
      omega
    · exact h.epoch hv hc hcl hlt

theorem point (hsane : ∀ t ∈ r₁.txids, t ≤ r₁.headTXID) {v : Ref} {t e : Nat} (hv : w'.Version b' v)
    (ht : v.Point t e) :
    w'.Origin v.lineage t ∨ ∃ c, w'.Moved c ∧ c.lineage = v.lineage ∧ c.txid = t ∧ c.epoch = e := by
  have hlift {b' : BranchId} {v : Ref} (hv : w.Version b' v)
      (hp : w.Origin v.lineage t ∨ ∃ c, w.Moved c ∧ c.lineage = v.lineage ∧ c.txid = t ∧
        c.epoch = e) : w'.Origin v.lineage t ∨
      ∃ c, w'.Moved c ∧ c.lineage = v.lineage ∧ c.txid = t ∧ c.epoch = e :=
    hp.imp (hl.origin hr ⟨_, _, hv, rfl⟩) (Exists.imp fun c hc => ⟨hl.moved.mpr (.inr hc.1), hc.2⟩)
  rcases hl.version.mp hv with ⟨rfl, rfl⟩ | hv
  · rcases hl.from_or with ⟨-, hnew⟩ | ⟨r₀, hr₀, hn, hf⟩
    · -- The first record of its lineage.
      refine .inl fun b'' v' hv' hvl => ?_
      rcases hl.version.mp hv' with ⟨rfl, rfl⟩ | hv'
      · exact hsane t ht.mem_txids
      · exact absurd ⟨_, _, hv', hvl⟩ hnew
    · have happly := hl.apply
      rw [hr₀] at happly
      have hv₀ := hr.current hr₀
      have hep : 1 ≤ r₀.epoch := (hr.epoch hv₀).1
      have hold (hp : r₀.Point t e) : w'.Origin r₁.lineage t ∨
          ∃ c, w'.Moved c ∧ c.lineage = r₁.lineage ∧ c.txid = t ∧ c.epoch = e := by
        rw [hf.lineage]
        exact hlift hv₀ (h.point hv₀ hp)
      rcases op.plain_or with hp | ⟨c, hc⟩ | ⟨l, hl'⟩
      · have hhe : r₀.headEpoch ≠ 0 := by
          intro h0
          have hst := congrArg Ref.headEpoch (hr.stored hv₀)
          simp only [Ref.stored, h0, if_true] at hst
          omega
        exact hold (RefOp.plain_point hp hhe happly ht)
      · obtain ⟨_, hr₀', hours, -, -, -, -⟩ := RefOp.head_frame hc happly
        cases hr₀'
        obtain ⟨-, hce, hcl, -⟩ := HeadCommit.ours_iff.mp hours
        rcases RefOp.head_point hc (by omega) happly ht with ⟨rfl, rfl⟩ | hp
        · exact .inr ⟨c, hl.moved.mpr (.inl hc), hcl.symm.trans hf.lineage.symm, rfl, rfl⟩
        · exact hold hp
      · rw [hn] at hl'
        cases hl'
  · exact hlift hv (h.point hv ht)

end Lands

theorem HeadInv.of_same (h : HeadInv w) (hversion : w'.Version = w.Version)
    (hmoved : w'.Moved = w.Moved)
    (hrefs : ∀ b r, w'.refs.lookup b = some r → w.refs.lookup b = some r)
    (hsent : Vouched HeadReady w') (hhas : ∀ {c}, w'.Moved c → c.key ∈ w'.objs) : HeadInv w' := by
  constructor
  case fence =>
    intro b r hcur hh
    simpa only [World.Over, hversion] using h.fence (hrefs b r hcur) hh
  case sent => exact hsent
  case slot => simpa only [hmoved] using @h.slot
  case owner => simpa only [hmoved, World.Owner, hversion] using @h.owner
  case has => exact hhas
  case top => simpa only [hmoved, hversion] using @h.top
  case next => simpa only [hmoved, hversion] using @h.next
  case epoch => simpa only [hmoved, hversion] using @h.epoch
  case point => simpa only [hmoved, hversion, World.Origin] using @h.point

end Step

theorem HeadInv.run (h : HeadInv w) (hr : RefsInv env w) {a : Act}
    (hr' : RefsInv env (a.run i w)) (hb' : BaseInv (a.run i w)) (hok : a.ok env i w)
    (hfollows : ∀ {j b op r'}, Wrote w (a.run i w) j b op (some r') →
      op.names = some r'.lineage ∧ ¬ w.Named r'.lineage ∨
        ∃ r, w.refs.lookup b = some r ∧ op.names = none ∧ r.Follows r')
    (hv : a.vouched HeadReady i w) (hcl : a.clears i w) : HeadInv (a.run i w) := by
  have hlog : w.log ⊆ (a.run i w).log := a.log_run.subset
  have hhas {c : HeadCommit} (hc : w.Moved c) : c.key ∈ (a.run i w).objs := by
    rcases Act.mem_objs (i := i) (a := a) (h.has hc) with hk | rfl | ⟨t, rfl⟩
    · exact hk
    · have := hr.epoch_owner (h.owner hc)
      rcases hcl _ _ _ (h.slot hc) with hle | ⟨-, hspent⟩
      · omega
      · exact absurd rfl (hspent.moved hc rfl rfl)
    · exact hcl.elim
  have hready {c : HeadCommit} (hs : c.key.slot = some (c.lineage, c.epoch, c.txid))
      (ho : w.Owner c.lineage c.epoch c.holder) (hk : c.key ∈ w.objs ∨ w.Over c.lineage c.epoch)
      (hdrop : a = .drop c.key → w.Spent c.lineage c.epoch c.txid → w.Over c.lineage c.epoch) :
      c.key ∈ (a.run i w).objs ∨ (a.run i w).Over c.lineage c.epoch := by
    rcases hk with hk | hover
    · rcases Act.mem_objs (i := i) (a := a) hk with hk | heq | ⟨t, rfl⟩
      · exact .inl hk
      · have := hr.epoch_owner ho
        subst heq
        rcases hcl _ _ _ hs with hle | ⟨-, hspent⟩
        · omega
        · exact .inr ((hdrop rfl hspent).mono hlog)
      · exact hcl.elim
    · exact .inr (hover.mono hlog)
  have hsent : Vouched HeadReady (a.run i w) := by
    intro j b op before after hp c hc
    rcases Act.pending_cases hp with hp | ⟨rfl, rfl⟩
    · obtain ⟨hs, ho, hk⟩ := h.sent _ _ _ _ _ hp c hc
      exact ⟨hs, ho.mono hlog, hready hs ho hk fun _ hspent => hspent.sent hp hc rfl rfl rfl⟩
    · obtain ⟨hs, ho, hk⟩ := hv c hc
      exact ⟨hs, ho.mono hlog, hready hs ho hk (by simp)⟩
  rcases h.sent.effects hr hok hv (fun _ _ _ _ hc => by cases hc) with
    hun | ⟨j, b, op, after, hw, hvouch, -⟩
  · have hmoved : (a.run i w).Moved = w.Moved := funext fun _ => propext hun.moved
    refine h.of_same (funext fun _ => funext fun _ => propext hun.version) hmoved
      (fun b r hcur => hun.lookup b ▸ hcur) hsent fun hc => hhas (hmoved ▸ hc)
  · cases after with
    | none =>
      have hmoved : (a.run i w).Moved = w.Moved := funext fun _ => propext hw.moved_none
      refine h.of_same (funext fun _ => funext fun _ => propext ?_) hmoved
        (fun b' r hcur => ?_) hsent fun hc => hhas (hmoved ▸ hc)
      · simp [hw.version]
      · rw [hw.lookup] at hcur
        split at hcur
        · cases hcur
        · exact hcur
    | some r₁ =>
      have hl : Lands w (a.run i w) b op r₁ :=
        ⟨by simp [hw.version], hw.moved, hfollows hw, hw.apply⟩
      have hver : (a.run i w).Version b r₁ := hl.version.mpr (.inl ⟨rfl, rfl⟩)
      -- The object of the move that was just made is there: its lease was not over.
      have hnew {c : HeadCommit} (hc : op.head = some c) :
          c.key.slot = some (c.lineage, c.epoch, c.txid) ∧ w.Owner c.lineage c.epoch c.holder ∧
            c.key ∈ (a.run i w).objs ∧ r₁.lineage = c.lineage ∧ c.txid ≤ r₁.headTXID := by
        obtain ⟨hs, ho, hk⟩ := hvouch c hc
        obtain ⟨r₀, hr₀, hours, hrl, -, hhead, -⟩ := RefOp.head_frame hc hw.apply
        obtain ⟨hh, he, hcl', -⟩ := HeadCommit.ours_iff.mp hours
        refine ⟨hs, ho, ?_, hrl.trans hcl', hhead.ge⟩
        have hlive : ¬ w.Over c.lineage c.epoch := by
          rw [← hcl', ← he]
          exact h.fence hr₀ (by simp [hh])
        rcases Act.mem_objs (i := i) (a := a) (hk.resolve_right hlive) with hk | rfl | ⟨t, rfl⟩
        · exact hk
        · exact absurd hw (Unwritten.not_wrote (.of_eq rfl rfl))
        · exact hcl.elim
      constructor
      case fence => exact fun hcur hh => hl.fence hr h hr' hw.lookup hcur hh
      case sent => exact hsent
      case slot =>
        intro c hc
        rcases hl.moved.mp hc with hc | hc
        · exact (hnew hc).1
        · exact h.slot hc
      case owner =>
        intro c hc
        rcases hl.moved.mp hc with hc | hc
        · exact (hnew hc).2.1.mono hlog
        · exact (h.owner hc).mono hlog
      case has =>
        intro c hc
        rcases hl.moved.mp hc with hc | hc
        · exact (hnew hc).2.2.1
        · exact hhas hc
      case top =>
        intro c hc
        rcases hl.moved.mp hc with hc | hc
        · exact ⟨b, r₁, hver, (hnew hc).2.2.2⟩
        · obtain ⟨b', r, hvr, hx⟩ := h.top hc
          exact ⟨b', r, hvr.mono hlog, hx⟩
      case next => exact fun hv₁ hv₂ hvl hlt => hl.next hr h hv₁ hv₂ hvl hlt
      case epoch => exact fun hv hc hcl hlt => hl.epoch hr h hv hc hcl hlt
      case point => exact fun hv ht => hl.point hr h (hb'.ref hver).txids hv ht

theorem follows_of_may (hr : RefsInv env w) (hmay : (refSpec env).may i w w') {r' : Ref}
    (hw : Wrote w w' j b op (some r')) :
    op.names = some r'.lineage ∧ ¬ w.Named r'.lineage ∨
      ∃ r, w.refs.lookup b = some r ∧ op.names = none ∧ r.Follows r' := by
  obtain ⟨a, hok, hname, rfl⟩ := hmay
  rcases hr.effects hok with hun | ⟨j', b', op', after, hw', hsrc⟩
  · exact absurd hw hun.not_wrote
  · obtain ⟨rfl, rfl, rfl, rfl⟩ := hw.unique hw'
    exact hr.follows_wrote hok hname hw hsrc

structure Unsent (i : Nat) (w : World) : Prop where
  moved : ∀ {c}, w.Moved c → c.holder ≠ i
  sent : ∀ {j b op before after c}, Pending.ref j b op before after ∈ w.pending →
    op.head = some c → c.holder ≠ i

end Offshoot
