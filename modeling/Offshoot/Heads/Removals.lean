import Offshoot.Heads.Checkpoint

/-!
# What a checkpoint removes is never read

A chain reads the object of the highest epoch at a txid.  Where an object's own move was
not made, the head got past its txid under a later epoch, whose object is there; so no
chain reads the object, through any number of base pointers.
-/

namespace Offshoot

open Conc Maps

variable {env : Env} {assumed : World → World → Prop} {w w' : World} {i host : Nat}
  {b : BranchId} {l : Lineage} {e t : Nat} {k : DataKey}

/-! ## Chains -/

variable {r : Ref}

/-- A chain reads from a lineage no further than a head of it has been. -/
theorem BaseInv.mem_chain (h : BaseInv w) {t' : Nat} {ms : List (ChainMember DataKey)}
    (hv : w.Version b r) (ht : t' ∈ r.txids) (hc : chain w.view r.lineage t' = .ok ms)
    {m : ChainMember DataKey} (hm : m ∈ ms) :
    ∃ l, m ∈ keepHighestEpoch (w.objs.members l) ∧ w.Leads ⟨l, m.maxTXID⟩ := by
  obtain ⟨l, members, hmem, hlive, hleads⟩ := chainFrom_mem (P := fun l t => w.Leads ⟨l, t⟩)
    (fun hleads hlt => by
      obtain ⟨b, v, hver, hl, hle⟩ := hleads
      exact ⟨b, v, hver, hl, hlt.trans hle⟩)
    (fun {l bp} hbase => by
      obtain ⟨bp', hobj, hleads⟩ := h.obj.obj (Objects.base_ok_some.mp hbase) l rfl
      obtain rfl := Obj.base.inj hobj
      exact hleads)
    ⟨b, r, hv, rfl, (h.ref hv).txids t' ht⟩ hc hm
  cases hmem
  exact ⟨l, hlive, hleads⟩

theorem Objects.member_of_slot {objs : Objects} (hk : k ∈ objs) (hs : k.slot = some (l, e, t)) :
    ∃ m ∈ objs.members l, m.epoch = e ∧ m.maxTXID = t ∧ m.byTXID = true := by
  obtain ⟨o, ho⟩ := Option.isSome_iff_exists.mp (AList.lookup_isSome.mpr hk)
  obtain ⟨m, hm⟩ : ∃ m, k.parseMember = some m := by
    cases k with
    | base _ => cases hs
    | _ => exact ⟨_, rfl⟩
  obtain ⟨hmax, hepoch, hby, -⟩ := DataKey.slot_member hs hm
  exact ⟨m, Objects.mem_members.mpr ⟨k, o, ho, DataKey.lineage_slot hs, hm⟩, hepoch, hmax, hby⟩

/-- Where the move of an object's slot was not made, no chain reads the object. -/
theorem World.Held.not_read (h : w.Held i l e t)
    (hnot : ∀ {c : HeadCommit}, w.Moved c → c.lineage = l → c.epoch = e → c.txid ≠ t)
    (hb : BaseInv w) (hh : HeadInv w) (hs : k.slot = some (l, e, t)) {t' : Nat}
    {ms : List (ChainMember DataKey)} (hv : w.Version b r) (ht : t' ∈ r.txids)
    (hc : chain w.view r.lineage t' = .ok ms) : ∀ m ∈ ms, m.key ≠ k := by
  rintro m hm rfl
  obtain ⟨l', hlive, b₁, v₁, hv₁, hl₁, hle⟩ := hb.mem_chain hv ht hc hm
  obtain ⟨k, o, -, hkl, hp⟩ := Objects.mem_members.mp (mem_of_mem_keepHighestEpoch hlive)
  obtain rfl : m.key = k := DataKey.parseMember_key hp
  obtain ⟨hmax, hepoch, hby, -⟩ := DataKey.slot_member hs hp
  obtain rfl : l' = l := hkl.symm.trans (DataKey.lineage_slot hs)
  -- A head got to the txid, by a move of a later epoch.
  obtain ⟨b₀, v₀, hv₀, hl₀, he₀, -, ht₀⟩ := h
  obtain ⟨c, hmoved, hcl, hct⟩ := hh.next hv₀ hv₁ (hl₁.trans hl₀.symm) (by simp only at hle; omega)
  have hge := hh.epoch hv₀ hmoved hcl (by omega)
  have hne : c.epoch ≠ e := fun heq =>
    hnot hmoved (hcl.trans hl₀) heq (by omega)
  -- Its object is there, and outranks the one removed.
  obtain ⟨m', hm', he', ht', hby'⟩ := Objects.member_of_slot (hh.has hmoved) (hh.slot hmoved)
  rw [hcl, hl₀] at hm'
  have hcollide : Collides m' m :=
    ⟨hby'.trans hby.symm, by omega, fun hf => by rw [hby'] at hf; cases hf⟩
  have hrank := moreLive_of_mem_keepHighestEpoch hlive hm' hcollide
  have hmore : moreLive m' m = true := by
    unfold moreLive
    rw [if_pos (by omega)]
    exact decide_eq_true (by omega)
  rw [hmore] at hrank
  cases hrank

theorem Ended.not_point (h : Ended i l e t w) (hh : HeadInv w) (hv : w.Version b r)
    (hl : r.lineage = l) : ¬ r.Point t e := by
  intro hp
  rcases hh.point hv hp with ho | ⟨c, hc, hcl, hct, hce⟩
  · obtain ⟨b', v, hv', hvl, -, -, hvt⟩ := h.held
    have := ho b' v hv' (hvl.trans hl.symm)
    omega
  · exact h.spent.moved hc (hcl.trans hl) hce hct

/-! ## Runs -/

theorem Op.writes_headless {op : Op} (hmoves : op.moves = false) (hland : ∀ n, op ≠ .land n)
    {kind : RefOp.Kind} (h : op.writes b kind) : kind ≠ .flush ∧ kind ≠ .checkpoint := by
  constructor <;> rintro rfl <;> cases op <;>
    simp [Op.writes, RefOp.Kind.destroys, RefOp.Kind.reaps, Op.moves] at h hmoves hland

theorem Op.prog_headless (op : Op) (hmoves : op.moves = false) (hgc : op.collects = false) :
    Does env i Act.headless (op.prog env i) := by
  by_cases hland : ∃ n, op = .land n
  · obtain ⟨n, rfl⟩ := hland
    exact .step fun _ _ => ⟨.late n, trivial, trivial, rfl⟩
  · have hland' : ∀ n, op ≠ .land n := fun n h => hland ⟨n, h⟩
    have hremakes : Does env i (Act.Remakes op.writes) (op.prog env i) := by
      cases hforks : op.forks with
      | true => exact op.prog_remakes hforks
      | false => exact (op.prog_grows hforks hmoves hgc hland').remakes
    exact hremakes.mono fun _ h => h.headless fun _ _ => Op.writes_headless hmoves hland'

/-- Neither a session nor a collection. -/
def Op.atRest : Op → Bool
  | .session .. | .gc .. => false
  | _ => true

theorem Op.prog_atRest (op : Op) (hop : op.atRest = true) (hw : Unsent i w) :
    (headLayer env assumed).Ok i ⊤ (op.prog env i) w := by
  cases hm : op.moves with
  | false =>
    have hgc : op.collects = false := by cases op <;> first | rfl | cases hop
    exact (op.prog_headless hm hgc).heads (fun _ h => ⟨h, fun _ => trivial⟩) Lasts.true trivial
  | true =>
    cases op with
    | checkpoint host b name fuel opts =>
      refine Spec.Holds.weaken ?_ (checkpoint_heads hw)
      rintro w w' ⟨a, hok, hv, hcl, -, hrun⟩
      exact ⟨a, hok, hv, hcl, trivial, hrun⟩
    | session _ _ _ _ _ _ => cases hop
    | _ => cases hm

theorem headLayer_crash : (headLayer env assumed).may i w (w.setFlight i none) :=
  ⟨.flight none, trivial, trivial, trivial, trivial, rfl⟩

end Offshoot
