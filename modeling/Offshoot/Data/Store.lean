import Offshoot.Data.History

/-!
# The objects a history leaves

The objects in the store against what the history commits: the object committed at
a txid outranks every other object there, uncommitted objects lie above what is
committed, and every key on the path of a txid some ref names is there.

An object is written by the holder of its epoch, above the head that holder read,
or into a lineage its writer has minted and no ref reads yet.
-/

namespace Offshoot

open Conc Maps List

namespace World

def Has (w : World) (k : DataKey) : Prop := (w.objs.lookup k).isSome

theorem has_iff {w : World} {k : DataKey} : w.Has k ↔ ∃ o, w.objs.lookup k = some o :=
  Option.isSome_iff_exists

/-- No later head move can commit the object: its epoch never has a holder or is
over, its txid is passed, or its lineage is gone. -/
def Dead (w : World) (k : DataKey) : Prop :=
  ∀ l e t, k.slot = some (l, e, t) → e ≤ 1 ∨
    (∃ b r, w.Version b r ∧ r.lineage = l ∧ (e < r.epoch ∨ t ≤ r.headTXID)) ∨
      w.Named l ∧ ∀ b r, w.refs.lookup b = some r → r.lineage ≠ l

/-- A committed key, or the base object of a lineage that shares its history.  Such an
object is written before a ref names it, and not after. -/
def Frozen (w : World) (k : DataKey) : Prop :=
  (∃ c, w.Committed c ∧ c.key = k) ∨ ∃ l bp, w.BaseOf l bp ∧ k = .base l

/-- The key is read to resolve a txid some ref names. -/
def Reads (w : World) (k : DataKey) : Prop :=
  ∃ b r t ks, w.refs.lookup b = some r ∧ t ∈ r.txids ∧ Path w r.lineage t ks ∧ k ∈ ks

end World

structure ObjInv (w : World) : Prop where
  /-- Members are for one txid, and base pointers lead to older lineages. -/
  shape : ∀ {k o}, w.objs.lookup k = some o →
    (∃ s, k.slot = some s) ∨ ∃ l bp, k = .base l ∧ o = .base bp ∧ bp.lineage < l
  /-- A lineage no ref reads has a base or members, not both. -/
  alone : ∀ {l k e t}, w.Has (.base l) → w.Has k → k.slot = some (l, e, t) → w.Named l
  top : ∀ {c k e}, w.Committed c → w.Has k → k.slot = some (c.lineage, e, c.txid) →
    e < c.epoch ∨ k = c.key ∨ e = c.epoch ∧ c.key = .snapshot c.lineage c.epoch c.txid
  below : ∀ {k l e t c}, w.Has k → k.slot = some (l, e, t) → w.Committed c → c.lineage = l →
    t ≤ c.txid → ∃ c', w.Committed c' ∧ c'.lineage = l ∧ c'.txid = t
  base : ∀ {l o}, w.Named l → w.objs.lookup (.base l) = some o → ∃ bp, w.BaseOf l bp ∧ o = .base bp
  above : ∀ {l bp k e t}, w.BaseOf l bp → w.Has k → k.slot = some (l, e, t) → bp.txid < t
  epoch : ∀ {l k e t}, w.Named l → w.Has k → k.slot = some (l, e, t) →
    ∃ b r, w.Version b r ∧ r.lineage = l ∧ r.epoch = e
  txid : ∀ {l k e t}, w.Named l → w.Has k → k.slot = some (l, e, t) →
    ∃ b r, w.Version b r ∧ r.lineage = l ∧ t ≤ r.headTXID + 1
  minted : ∀ {k}, w.Has k → ∃ j, w.Minted j k.lineage
  /-- A lineage no ref has read has no objects but its first epoch's. -/
  draft : ∀ {l k e t}, ¬ w.Named l → w.Has k → k.slot = some (l, e, t) → e = 1
  live : ∀ {k}, w.Reads k → w.Has k

inductive PutOK (i : Nat) (w : World) : DataKey → Obj → Prop
  | draft {l t o} : w.Draft i l → w.inFlight i = some .fork → ¬ w.Has (.base l) →
      PutOK i w (.snapshot l 1 t) o
  | base {l bp} : w.Draft i l → w.inFlight i = some .fork → bp.lineage < l →
      (∀ k, w.Has k → k.lineage ≠ l) → PutOK i w (.base l) (.base bp)
  | upload {k o l e t b r} : k.slot = some (l, e, t) → w.Owner l e i → w.Version b r →
      r.lineage = l → r.headTXID + 1 = t →
      (∀ c, w.Committed c → c.lineage = l → c.txid = t → e < c.epoch) → PutOK i w k o

/-- An object the thread may remove: one of its own that no ref has come to read. -/
inductive DropOK (i : Nat) (w : World) : DataKey → Prop
  | draft {k} : w.Draft i k.lineage → DropOK i w k
  | upload {k l e t} : k.slot = some (l, e, t) → w.Owner l e i →
      (∀ c, w.Committed c → c.key ≠ k) → DropOK i w k

/-- An object a collection may remove: nothing reads it, no head move will name it,
and no lineage is being prepared. -/
structure SweepOK (w : World) (k : DataKey) : Prop where
  idle : ∀ j, w.inFlight j ≠ some .fork
  unread : ¬ w.Reads k
  dead : w.Dead k

theorem ObjInv.empty : ObjInv .empty := by
  have hhas : ∀ k, ¬ World.Has .empty k := by simp [World.Has, World.empty]
  constructor
  case shape => simp [World.empty]
  case alone => exact fun hb => absurd hb (hhas _)
  case top => exact fun _ hk => absurd hk (hhas _)
  case below => exact fun hk => absurd hk (hhas _)
  case base => simp [World.empty]
  case above => exact fun _ hk => absurd hk (hhas _)
  case epoch => exact fun _ hk => absurd hk (hhas _)
  case txid => exact fun _ hk => absurd hk (hhas _)
  case minted => exact fun hk => absurd hk (hhas _)
  case draft => exact fun _ hk => absurd hk (hhas _)
  case live =>
    rintro k ⟨b, r, t, ks, hr, -⟩
    simp [World.empty] at hr

variable {k : DataKey} {l : Lineage} {t : Nat} {o : Obj}

section Objects

variable {env : Env} {w w' : World} {i : Nat}

theorem World.has_putObj {k' : DataKey} : (w.putObj k o).Has k' ↔ k' = k ∨ w.Has k' := by
  by_cases h : k' = k
  · subst h
    simp [World.Has, World.putObj]
  · simp [World.Has, World.putObj, h, AList.lookup_insert_ne h]

theorem World.has_dropObj {k' : DataKey} : (w.dropObj k).Has k' ↔ k' ≠ k ∧ w.Has k' := by
  by_cases h : k' = k
  · subst h
    simp [World.Has, World.dropObj]
  · simp [World.Has, World.dropObj, h, AList.lookup_erase_ne h]

theorem Path.frozen {ks : List DataKey} (h : Path w l t ks) (hk : k ∈ ks) : w.Frozen k := by
  induction h with
  | snapshot hc =>
    obtain rfl := mem_singleton.mp hk
    exact .inl ⟨_, hc, rfl⟩
  | segment hc _ ih =>
    rcases mem_append.mp hk with hk | hk
    · exact ih hk
    · obtain rfl := mem_singleton.mp hk
      exact .inl ⟨_, hc, rfl⟩
  | through hb _ _ ih =>
    rcases mem_cons.mp hk with rfl | hk
    · exact .inr ⟨_, _, hb, rfl⟩
    · exact ih hk

theorem World.SameWrites.reads (hs : w.SameWrites w')
    (hrefs : ∀ b, w'.refs.lookup b = w.refs.lookup b) : w'.Reads k ↔ w.Reads k := by
  simp only [World.Reads, hrefs, hs.path]

theorem ObjInv.of_same (h : ObjInv w) (hs : w.SameWrites w') (hlog : w.log ⊆ w'.log)
    (hrefs : ∀ b, w'.refs.lookup b = w.refs.lookup b) (hobjs : w'.objs = w.objs) : ObjInv w' := by
  have hhas : w'.Has = w.Has := by
    funext k
    simp only [World.Has, hobjs]
  constructor
  case shape => simpa only [hobjs] using @h.shape
  case alone => simpa only [hhas, hs.named] using @h.alone
  case top => simpa only [hhas, hs.committed] using @h.top
  case below => simpa only [hhas, hs.committed] using @h.below
  case base => simpa only [hobjs, hs.named, hs.baseOf] using @h.base
  case above => simpa only [hhas, hs.baseOf] using @h.above
  case epoch => simpa only [hhas, hs.named, hs.version] using @h.epoch
  case txid => simpa only [hhas, hs.named, hs.version] using @h.txid
  case minted =>
    intro k hk
    obtain ⟨j, hj⟩ := h.minted (hhas ▸ hk)
    exact ⟨j, hlog hj⟩
  case draft => simpa only [hhas, hs.named] using @h.draft
  case live => simpa only [hhas, hs.reads hrefs] using @h.live

theorem ObjInv.put (h : ObjInv w) (hl : LogInv w) (hr : RefsInv env w)
    (hok : PutOK i w k o) : ObjInv (w.putObj k o) := by
  -- An object of a named lineage is an upload by the holder of its epoch.
  have hup : ∀ {l e t}, w.Named l → k.slot = some (l, e, t) → w.Owner l e i ∧
      (∃ b r, w.Version b r ∧ r.lineage = l ∧ r.headTXID + 1 = t) ∧
      ∀ c, w.Committed c → c.lineage = l → c.txid = t → e < c.epoch := by
    intro l e t hn hs
    cases hok with
    | draft hd _ _ =>
      obtain ⟨rfl, -, -⟩ : _ = l ∧ _ := by simpa [DataKey.slot] using hs
      exact absurd hn hd.2.1
    | base hd _ _ _ => exact absurd hs DataKey.slot_base
    | upload hs' ho hv hl' ht hc =>
      obtain ⟨rfl, rfl, rfl⟩ : _ = l ∧ _ = e ∧ _ = t := by
        simpa using Option.some.inj (hs'.symm.trans hs)
      exact ⟨ho, ⟨_, _, hv, hl', ht⟩, hc⟩
  constructor
  case shape =>
    intro k' o' hk'
    by_cases hkk : k' = k
    · subst hkk
      obtain rfl : o = o' := by simpa [World.putObj] using hk'
      cases hok with
      | draft _ _ _ => exact .inl ⟨_, rfl⟩
      | base _ _ hlt _ => exact .inr ⟨_, _, rfl, rfl, hlt⟩
      | upload hs _ _ _ _ _ => exact .inl ⟨_, hs⟩
    · exact h.shape (by simpa [World.putObj, AList.lookup_insert_ne hkk] using hk')
  case alone =>
    intro l k' e t hb hk' hs
    rw [World.has_putObj] at hb hk'
    rcases hb with rfl | hb
    · -- A base object is put into a lineage that has nothing.
      cases hok with
      | base _ _ _ hnone =>
        rcases hk' with rfl | hk'
        · exact absurd hs DataKey.slot_base
        · exact absurd (DataKey.lineage_slot hs) (hnone _ hk')
      | upload hs' _ _ _ _ _ => exact absurd hs' DataKey.slot_base
    · rcases hk' with rfl | hk'
      · cases hok with
        | draft _ _ hnb =>
          obtain ⟨rfl, -, -⟩ : _ = l ∧ _ := by simpa [DataKey.slot] using hs
          exact absurd hb hnb
        | base _ _ _ _ => exact absurd hs DataKey.slot_base
        | upload hs' _ hv hl' _ _ =>
          obtain ⟨rfl, -, -⟩ : _ = l ∧ _ = e ∧ _ = t := by
            simpa using Option.some.inj (hs'.symm.trans hs)
          exact ⟨_, _, hv, hl'⟩
      · exact h.alone hb hk' hs
  case top =>
    intro c k' e hc hk' hs
    rcases World.has_putObj.mp hk' with rfl | hk'
    · exact .inl ((hup (hl.named_of_committed hc) hs).2.2 c hc rfl rfl)
    · exact h.top hc hk' hs
  case below =>
    intro k' l e t c hk' hs hc hcl hle
    rcases World.has_putObj.mp hk' with rfl | hk'
    · obtain ⟨-, ⟨b, r, hv, hrl, hrt⟩, -⟩ := hup (hcl ▸ hl.named_of_committed hc) hs
      obtain ⟨c', hc', hl', ht'⟩ := hl.next_committed hv hc (hcl.trans hrl.symm) (by omega)
      exact ⟨c', hc', hl'.trans hrl, ht'.trans hrt⟩
    · exact h.below hk' hs hc hcl hle
  case base =>
    intro l o' hn ho'
    have hne : DataKey.base l ≠ k := by
      rintro rfl
      cases hok with
      | base hd _ _ _ => exact hd.2.1 hn
      | upload hs _ _ _ _ _ => exact DataKey.slot_base hs
    exact h.base hn (by simpa [World.putObj, AList.lookup_insert_ne hne] using ho')
  case above =>
    intro l bp k' e t hb hk' hs
    rcases World.has_putObj.mp hk' with rfl | hk'
    · obtain ⟨-, ⟨b, r, hv, hrl, hrt⟩, -⟩ := hup (hr.named_of_baseOf hb) hs
      have := hl.base_head hb hv hrl
      omega
    · exact h.above hb hk' hs
  case epoch =>
    intro l k' e t hn hk' hs
    rcases World.has_putObj.mp hk' with rfl | hk'
    · obtain ⟨⟨b, r, hv, hrl, hre, -⟩, -⟩ := hup hn hs
      exact ⟨b, r, hv, hrl, hre⟩
    · exact h.epoch hn hk' hs
  case txid =>
    intro l k' e t hn hk' hs
    rcases World.has_putObj.mp hk' with rfl | hk'
    · obtain ⟨-, ⟨b, r, hv, hrl, hrt⟩, -⟩ := hup hn hs
      exact ⟨b, r, hv, hrl, hrt.ge⟩
    · exact h.txid hn hk' hs
  case minted =>
    intro k' hk'
    rcases World.has_putObj.mp hk' with rfl | hk'
    · cases hok with
      | draft hd _ _ | base hd _ _ _ => exact ⟨i, hd.1⟩
      | upload hs _ hv hrl _ _ =>
        exact DataKey.lineage_slot hs ▸ hr.named ⟨_, _, hv, hrl⟩
    · exact h.minted hk'
  case draft =>
    intro l k' e t hn hk' hs
    rcases World.has_putObj.mp hk' with rfl | hk'
    · cases hok with
      | draft _ _ _ =>
        obtain ⟨-, rfl, -⟩ : _ ∧ 1 = e ∧ _ := by simpa [DataKey.slot] using hs
        rfl
      | base _ _ _ _ => exact absurd hs DataKey.slot_base
      | upload hs' _ hv hrl _ _ =>
        obtain ⟨rfl, -, -⟩ : l = _ ∧ e = _ ∧ t = _ := by simpa using hs.symm.trans hs'
        exact absurd ⟨_, _, hv, hrl⟩ hn
    · exact h.draft hn hk' hs
  case live =>
    intro k' hrd
    have hrd : w.Reads k' := ((World.SameWrites.of_log (by rfl)).reads fun _ => by rfl).mp hrd
    exact World.has_putObj.mpr (.inr (h.live hrd))

theorem ObjInv.dropObj (h : ObjInv w) (hk : ¬ w.Reads k) : ObjInv (w.dropObj k) := by
  have hhas : ∀ {k'}, (w.dropObj k).Has k' → w.Has k' := fun hk' => (World.has_dropObj.mp hk').2
  have hlook : ∀ {k' o}, (w.dropObj k).objs.lookup k' = some o → w.objs.lookup k' = some o := by
    intro k' o ho
    by_cases hkk : k' = k
    · subst hkk
      simp [World.dropObj] at ho
    · simpa [World.dropObj, AList.lookup_erase_ne hkk] using ho
  constructor
  case shape => exact fun hk' => h.shape (hlook hk')
  case alone => exact fun hb hk' hs => h.alone (hhas hb) (hhas hk') hs
  case top => exact fun hc hk' hs => h.top hc (hhas hk') hs
  case below => exact fun hk' hs hc hcl hle => h.below (hhas hk') hs hc hcl hle
  case base => exact fun hn ho => h.base hn (hlook ho)
  case above => exact fun hb hk' hs => h.above hb (hhas hk') hs
  case epoch => exact fun hn hk' hs => h.epoch hn (hhas hk') hs
  case txid => exact fun hn hk' hs => h.txid hn (hhas hk') hs
  case minted => exact fun hk' => h.minted (hhas hk')
  case draft => exact fun hn hk' hs => h.draft hn (hhas hk') hs
  case live =>
    intro k' hrd
    have hrd : w.Reads k' := ((World.SameWrites.of_log (by rfl)).reads fun _ => by rfl).mp hrd
    exact World.has_dropObj.mpr ⟨fun hkk => hk (hkk ▸ hrd), h.live hrd⟩

section

variable (hl : LogInv w) (hr : RefsInv env w)

include hl hr

theorem World.Frozen.named (h : w.Frozen k) : w.Named k.lineage := by
  rcases h with ⟨c, hc, rfl⟩ | ⟨l, bp, hb, rfl⟩
  · exact DataKey.lineage_slot (hl.slot hc) ▸ hl.named_of_committed hc
  · exact hr.named_of_baseOf hb

theorem PutOK.not_frozen (hok : PutOK i w k o) : ¬ w.Frozen k := by
  intro hf
  have hn := hf.named hl hr
  cases hok with
  | draft hd _ _ => exact hd.2.1 hn
  | base hd _ _ _ => exact hd.2.1 hn
  | upload hs _ _ _ _ hlt =>
    rcases hf with ⟨c, hc, rfl⟩ | ⟨l, bp, hb, rfl⟩
    · obtain ⟨rfl, rfl, rfl⟩ : _ = c.lineage ∧ _ = c.epoch ∧ _ = c.txid := by
        simpa using hs.symm.trans (hl.slot hc)
      exact lt_irrefl _ (hlt c hc rfl rfl)
    · exact DataKey.slot_base hs

theorem DropOK.not_frozen (hok : DropOK i w k) : ¬ w.Frozen k := by
  intro hf
  cases hok with
  | draft hd => exact hd.2.1 (hf.named hl hr)
  | upload hs _ hne =>
    rcases hf with ⟨c, hc, rfl⟩ | ⟨l, bp, hb, rfl⟩
    · exact hne c hc rfl
    · exact DataKey.slot_base hs

theorem DropOK.unread (hok : DropOK i w k) : ¬ w.Reads k := by
  rintro ⟨b, r, t, ks, -, -, hp, hk⟩
  exact hok.not_frozen hl hr (hp.frozen hk)

end

/-! ## A ref write -/

section Land

variable {b : BranchId} {op : RefOp} {after : Option Ref}

theorem reads_of_old (hl : LogInv w) (hl' : LogInv w') (hr : RefsInv env w) (hlog : w.log ⊆ w'.log)
    {b' : BranchId} {r : Ref} {ks : List DataKey} (hcur : w.refs.lookup b' = some r)
    (ht : t ∈ r.txids) (hp : Path w' r.lineage t ks) (hk : k ∈ ks) : w.Reads k := by
  obtain ⟨ks₀, hp₀⟩ := hl.path (hr.current hcur) ht
  obtain rfl := hl'.path_unique hp (hp₀.mono hlog)
  exact ⟨b', r, t, _, hcur, ht, hp₀, hk⟩

/-- A write that names no lineage is judged by the heads it commits and by the keys that are
read after it. -/
theorem ObjInv.land_unnamed (h : ObjInv w) (hr : RefsInv env w) (hnames : op.names = none)
    (happly : op.apply (w.refs.lookup b) = some after)
    (htop : ∀ c k e, (w.land i b op after).Committed c → w.Has k →
      k.slot = some (c.lineage, e, c.txid) →
      e < c.epoch ∨ k = c.key ∨ e = c.epoch ∧ c.key = .snapshot c.lineage c.epoch c.txid)
    (hbelow : ∀ k l e t c, w.Has k → k.slot = some (l, e, t) →
      (w.land i b op after).Committed c → c.lineage = l → t ≤ c.txid →
      ∃ c', (w.land i b op after).Committed c' ∧ c'.lineage = l ∧ c'.txid = t)
    (hlive : ∀ k, (w.land i b op after).Reads k → w.Has k) : ObjInv (w.land i b op after) := by
  have hbase : ∀ l bp, (w.land i b op after).BaseOf l bp ↔ w.BaseOf l bp := by
    simp [World.baseOf_land, hnames]
  have hnamed : ∀ {l}, (w.land i b op after).Named l → w.Named l := fun hn =>
    (hr.named_land happly hn).resolve_right (by simp [hnames])
  have hlog : w.log ⊆ (w.land i b op after).log := World.log_subset_land
  constructor
  case shape => exact h.shape
  case alone => exact fun hb hk hs => (h.alone hb hk hs).mono hlog
  case top => exact htop _ _ _
  case below => exact hbelow _ _ _ _ _
  case base =>
    intro l o hn ho
    obtain ⟨bp, hb, rfl⟩ := h.base (hnamed hn) ho
    exact ⟨bp, (hbase _ _).mpr hb, rfl⟩
  case above => exact fun hb hk hs => h.above ((hbase _ _).mp hb) hk hs
  case epoch =>
    intro l k e t hn hk hs
    obtain ⟨b', r, hv, hx⟩ := h.epoch (hnamed hn) hk hs
    exact ⟨b', r, hv.mono hlog, hx⟩
  case txid =>
    intro l k e t hn hk hs
    obtain ⟨b', r, hv, hx⟩ := h.txid (hnamed hn) hk hs
    exact ⟨b', r, hv.mono hlog, hx⟩
  case minted =>
    intro k hk
    obtain ⟨j, hj⟩ := h.minted hk
    exact ⟨j, hlog hj⟩
  case draft => exact fun hn hk hs => h.draft (fun hn' => hn (hn'.mono hlog)) hk hs
  case live => exact hlive _

theorem ObjInv.land_plain (h : ObjInv w) (hl : LogInv w) (hr : RefsInv env w)
    (hl' : LogInv (w.land i b op after)) (hplain : op.plain)
    (happly : op.apply (w.refs.lookup b) = some after) : ObjInv (w.land i b op after) := by
  have hnames : op.names = none := Act.plain_names hplain
  have hcommit : ∀ c, (w.land i b op after).Committed c ↔ w.Committed c := by
    simp [World.committed_land, RefOp.plain_head hplain, hnames]
  refine h.land_unnamed hr hnames happly ?top ?below ?live
  case top => exact fun c k e hc hk hs => h.top ((hcommit _).mp hc) hk hs
  case below =>
    intro k l e t c hk hs hc hcl hle
    obtain ⟨c', hc', hx⟩ := h.below hk hs ((hcommit _).mp hc) hcl hle
    exact ⟨c', (hcommit _).mpr hc', hx⟩
  case live =>
    rintro k ⟨b', r', t, ks, hcur, ht, hp, hk⟩
    rw [World.lookup_land] at hcur
    split at hcur
    · subst hcur
      obtain ⟨r, hcur, hrl, -, hts⟩ := RefOp.plain_frame hplain happly
      exact h.live (reads_of_old hl hl' hr World.log_subset_land hcur (hts t ht) (hrl ▸ hp) hk)
    · exact h.live (reads_of_old hl hl' hr World.log_subset_land hcur ht hp hk)

/-- A head move may commit an object that is there and outranks those of its epoch. -/
structure HeadOK (w : World) (c : HeadCommit) : Prop where
  slot : c.key.slot = some (c.lineage, c.epoch, c.txid)
  has : w.Has c.key
  top : ∀ {k}, w.Has k → k.slot = some (c.lineage, c.epoch, c.txid) →
    k = c.key ∨ c.key = .snapshot c.lineage c.epoch c.txid

theorem ObjInv.land_head (h : ObjInv w) (hl : LogInv w) (hr : RefsInv env w) {c : HeadCommit}
    (hl' : LogInv (w.land i b op after)) (hc : op.head = some c) (hok : HeadOK w c)
    (happly : op.apply (w.refs.lookup b) = some after) : ObjInv (w.land i b op after) := by
  have hnames : op.names = none := RefOp.head_names hc
  obtain ⟨r', rfl⟩ : ∃ r', after = some r' := RefOp.apply_some happly (by rintro rfl; cases hc)
  obtain ⟨r, hcur, hours, hrl', -, -, hts⟩ := RefOp.head_frame hc happly
  obtain ⟨-, hre, hrl, hrh⟩ := HeadCommit.ours_iff.mp hours
  have hcommit : ∀ d, (w.land i b op (some r')).Committed d ↔ w.Committed d ∨ d = c.commit := by
    simp [World.committed_land, hc, hnames]
  have hlog : w.log ⊆ (w.land i b op (some r')).log := World.log_subset_land
  have hcn : w.Named c.lineage := ⟨b, r, hr.current hcur, hrl⟩
  refine h.land_unnamed hr hnames happly ?top ?below ?live
  case top =>
    intro d k e hd hk hs
    rcases (hcommit d).mp hd with hd | rfl
    · exact h.top hd hk hs
    -- No epoch of the lineage is later than the current one.
    obtain ⟨b', r'', hv, hl'', he⟩ := h.epoch hcn hk hs
    have hle := (hr.latest hcur hv (hl''.trans hrl.symm)).1
    rcases lt_or_ge e c.epoch with hlt | hge
    · exact .inl hlt
    have hee : e = c.epoch := by omega
    subst hee
    rcases hok.top hk hs with rfl | hsnap
    · exact .inr (.inl rfl)
    · exact .inr (.inr ⟨rfl, hsnap⟩)
  case below =>
    intro k l e t d hk hs hd hdl hle
    have hlift : (∃ d', w.Committed d' ∧ d'.lineage = l ∧ d'.txid = t) →
        ∃ d', (w.land i b op (some r')).Committed d' ∧ d'.lineage = l ∧ d'.txid = t :=
      Exists.imp fun d' hd' => ⟨(hcommit d').mpr (.inl hd'.1), hd'.2⟩
    rcases (hcommit d).mp hd with hd | rfl
    · exact hlift (h.below hk hs hd hdl hle)
    obtain rfl : c.lineage = l := hdl
    rcases lt_or_ge r.headTXID t with hlt | hge
    · refine ⟨c.commit, (hcommit _).mpr (.inr rfl), rfl, ?_⟩
      simp only [HeadCommit.commit] at hle ⊢
      omega
    · -- Below the old head: it is committed, or it is the fork point.
      obtain ⟨ks, hp⟩ := hl.path (hr.current hcur) (Ref.mem_txids.mpr (.inl rfl))
      rw [hrl] at hp
      generalize hT : r.headTXID = T at hp hge
      cases hp with
      | snapshot hd => exact hlift (h.below hk hs hd rfl hge)
      | segment hd _ => exact hlift (h.below hk hs hd rfl hge)
      | through hb hle' _ =>
        have := h.above hb hk hs
        omega
  case live =>
    rintro k ⟨b', r'', t, ks, hcur', ht, hp, hk⟩
    rw [World.lookup_land] at hcur'
    split at hcur'
    · cases hcur'
      rw [hrl'] at hp
      rcases hts t ht with rfl | ht
      · -- The path at the new head is the committed key, after the old head's path.
        have hnew : (w.land i b op (some r')).Committed c.commit := (hcommit _).mpr (.inr rfl)
        have hhead : r.headTXID ∈ r.txids := Ref.mem_txids.mpr (.inl rfl)
        rcases hl'.path_commit hnew (hrl ▸ hp) with rfl | ⟨t', ks', ht', hp', rfl⟩
        · obtain rfl := mem_singleton.mp hk
          exact hok.has
        · rcases mem_append.mp hk with hk | hk
          · obtain rfl : r.headTXID = t' := by simp only [HeadCommit.commit] at ht'; omega
            exact h.live (reads_of_old hl hl' hr hlog hcur hhead (hrl ▸ hp') hk)
          · obtain rfl := mem_singleton.mp hk
            exact hok.has
      · exact h.live (reads_of_old hl hl' hr hlog hcur ht hp hk)
    · exact h.live (reads_of_old hl hl' hr hlog hcur' ht hp hk)

/-- The objects of a lineage a record is about to name: a snapshot for each of its
txids, or a base pointer to a lineage whose objects are there. -/
structure Stocked (w : World) (l : Lineage) (r : Ref) : Prop where
  own : r.base = none → (∀ t ∈ r.txids, w.Has (.snapshot l 1 t)) ∧
    ∀ k, w.Has k → k.lineage = l → ∃ t ∈ r.txids, k = .snapshot l 1 t
  shared : ∀ bp, r.base = some bp → w.objs.lookup (.base l) = some (.base bp) ∧
    (∀ k, w.Has k → k.lineage = l → k = .base l) ∧
    ∀ t ∈ r.txids, ∀ ks, Path w bp.lineage t ks → ∀ k ∈ ks, w.Has k

theorem Stocked.slot {r : Ref} (h : Stocked w l r) {e : Nat} (hk : w.Has k)
    (hs : k.slot = some (l, e, t)) : r.base = none ∧ e = 1 ∧ t ∈ r.txids ∧ k = .snapshot l 1 t := by
  have hkl := DataKey.lineage_slot hs
  cases hb : r.base with
  | none =>
    obtain ⟨t', ht', rfl⟩ := (h.own hb).2 k hk hkl
    obtain ⟨-, rfl, rfl⟩ : l = l ∧ 1 = e ∧ t' = t := by simpa [DataKey.slot] using hs
    exact ⟨rfl, rfl, ht', rfl⟩
  | some bp =>
    obtain rfl := (h.shared bp hb).2.1 k hk hkl
    exact absurd hs DataKey.slot_base

theorem ObjInv.land_names (h : ObjInv w) (hl : LogInv w) (hr : RefsInv env w)
    (hl' : LogInv (w.land i b op after)) (hn : op.names = some l) (hun : ¬ w.Named l)
    (hok : ∀ r', after = some r' → Prepared w r' ∧ Stocked w l r')
    (happly : op.apply (w.refs.lookup b) = some after) : ObjInv (w.land i b op after) := by
  obtain ⟨r', rfl⟩ : ∃ r', after = some r' := RefOp.apply_some happly (by rintro rfl; cases hn)
  obtain ⟨hprep, hst⟩ := hok r' rfl
  obtain ⟨hrl, hre⟩ : r'.lineage = l ∧ r'.epoch = 1 := by
    obtain ⟨l', hn', hx, he, -⟩ | ⟨_, -, hn', -⟩ := RefOp.apply_cases happly
    · exact ⟨hx.trans (Option.some.inj (hn'.symm.trans hn)), he⟩
    · rw [hn] at hn'
      cases hn'
  have hcommit : ∀ d, (w.land i b op (some r')).Committed d ↔
      w.Committed d ∨ r'.base = none ∧ ∃ t ∈ r'.txids, d = .copied l t := by
    intro d
    simp only [World.committed_land, RefOp.names_head hn, hn]
    simp
  have hbase : ∀ l' bp, (w.land i b op (some r')).BaseOf l' bp ↔
      w.BaseOf l' bp ∨ l' = l ∧ r'.base = some bp := by
    simp [World.baseOf_land, hn, eq_comm]
  have hlog : w.log ⊆ (w.land i b op (some r')).log := World.log_subset_land
  have hnamed : ∀ {l'}, (w.land i b op (some r')).Named l' → w.Named l' ∨ l' = l := by
    intro l' hn'
    rcases hr.named_land happly hn' with hn' | hn'
    · exact .inl hn'
    · exact .inr (Option.some.inj (hn'.symm.trans hn))
  have hver : (w.land i b op (some r')).Version b r' := by simp [World.version_land]
  have hnoc : ∀ {d}, w.Committed d → d.lineage ≠ l := fun hd he =>
    hun (he ▸ hl.named_of_committed hd)
  constructor
  case shape => exact h.shape
  case alone => exact fun hb hk hs => (h.alone hb hk hs).mono hlog
  case top =>
    intro d k e hd hk hs
    rcases (hcommit d).mp hd with hd | ⟨-, t, -, rfl⟩
    · exact h.top hd hk hs
    · obtain ⟨-, -, -, rfl⟩ := hst.slot hk hs
      exact .inr (.inl rfl)
  case below =>
    intro k l' e t d hk hs hd hdl hle
    rcases (hcommit d).mp hd with hd | ⟨hnone, t', -, rfl⟩
    · obtain ⟨d', hd', hx⟩ := h.below hk hs hd hdl hle
      exact ⟨d', (hcommit d').mpr (.inl hd'), hx⟩
    · obtain rfl : l = l' := hdl
      obtain ⟨-, -, ht, -⟩ := hst.slot hk hs
      exact ⟨_, (hcommit _).mpr (.inr ⟨hnone, t, ht, rfl⟩), rfl, rfl⟩
  case base =>
    intro l' o hn' ho
    rcases hnamed hn' with hn' | rfl
    · obtain ⟨bp, hb, rfl⟩ := h.base hn' ho
      exact ⟨bp, (hbase _ _).mpr (.inl hb), rfl⟩
    · cases hb : r'.base with
      | none =>
        obtain ⟨t, -, hk⟩ := (hst.own hb).2 _ (World.has_iff.mpr ⟨o, ho⟩) rfl
        cases hk
      | some bp =>
        have ho' := ho.symm.trans (hst.shared bp hb).1
        exact ⟨bp, (hbase _ _).mpr (.inr ⟨rfl, hb⟩), Option.some.inj ho'⟩
  case above =>
    intro l' bp k e t hb hk hs
    rcases (hbase _ _).mp hb with hb | ⟨rfl, hb⟩
    · exact h.above hb hk hs
    · rw [(hst.slot hk hs).1] at hb
      cases hb
  case epoch =>
    intro l' k e t hn' hk hs
    rcases hnamed hn' with hn' | rfl
    · obtain ⟨b', r, hv, hx⟩ := h.epoch hn' hk hs
      exact ⟨b', r, hv.mono hlog, hx⟩
    · obtain ⟨-, rfl, -, -⟩ := hst.slot hk hs
      exact ⟨b, r', hver, hrl, hre⟩
  case txid =>
    intro l' k e t hn' hk hs
    rcases hnamed hn' with hn' | rfl
    · obtain ⟨b', r, hv, hx⟩ := h.txid hn' hk hs
      exact ⟨b', r, hv.mono hlog, hx⟩
    · obtain ⟨-, -, ht, -⟩ := hst.slot hk hs
      exact ⟨b, r', hver, hrl, (hl'.txids hver ht).trans (Nat.le_succ _)⟩
  case minted =>
    intro k hk
    obtain ⟨j, hj⟩ := h.minted hk
    exact ⟨j, hlog hj⟩
  case draft => exact fun hn hk hs => h.draft (fun hn' => hn (hn'.mono hlog)) hk hs
  case live =>
    rintro k ⟨b', r'', t, ks, hcur, ht, hp, hk⟩
    rw [World.lookup_land] at hcur
    split at hcur
    · cases hcur
      rw [hrl] at hp
      cases hb : r'.base with
      | none =>
        have hc : (w.land i b op (some r')).Committed (.copied l t) :=
          (hcommit _).mpr (.inr ⟨hb, t, ht, rfl⟩)
        obtain rfl := hl'.path_unique hp (.snapshot hc)
        obtain rfl := mem_singleton.mp hk
        exact (hst.own hb).1 t ht
      | some bp =>
        obtain ⟨hbo, -, hks⟩ := hst.shared bp hb
        obtain ⟨hhead, hpaths⟩ := hprep.2 bp hb
        obtain ⟨ks₀, hp₀⟩ := hpaths t ht
        have hthrough : Path (w.land i b op (some r')) l t (.base l :: ks₀) :=
          .through ((hbase _ _).mpr (.inr ⟨rfl, hb⟩)) (hhead ▸ hprep.1 t ht) (hp₀.mono hlog)
        obtain rfl := hl'.path_unique hp hthrough
        rcases mem_cons.mp hk with rfl | hk
        · exact World.has_iff.mpr ⟨_, hbo⟩
        · exact hks t ht ks₀ hp₀ k hk
    · exact h.live (reads_of_old hl hl' hr hlog hcur ht hp hk)

end Land

end Objects

end Offshoot
