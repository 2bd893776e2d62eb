import Offshoot.Heads.Layer

/-!
# At-rest checkpoints and the moves

A checkpoint makes no move before its object is there.  It gives the object up when it
has made none, or when the record read back shows that its lease is over with the head
still below; and it reports a checkpoint only when some record has carried it.
-/

namespace Offshoot

open Conc Maps

variable {env : Env} {assumed : World → World → Prop} {w : World} {i host : Nat}
  {b : BranchId} {l : Lineage} {e t : Nat} {k : DataKey} {P : World → Prop}
  {X : World → Act → Prop} {W : BranchId → RefOp.Kind → Prop}

/-! ## What moves no head -/

variable {op : RefOp}

theorem RefOp.head_of_kind (hf : op.kind ≠ .flush) (hc : op.kind ≠ .checkpoint) :
    op.head = none := by
  cases op with
  | edit e =>
    cases e with
    | flush _ => exact absurd rfl hf
    | checkpoint _ => exact absurd rfl hc
    | _ => rfl
  | _ => rfl

variable {a : Act}

theorem Act.Remakes.headless (h : a.Remakes W)
    (hW : ∀ b k, W b k → k ≠ .flush ∧ k ≠ .checkpoint) : a.headless := by
  cases a with
  | write b op _ | grant b op _ _ | send b op _ _ =>
    obtain ⟨hf, hc⟩ := hW b op.kind h.1
    exact RefOp.head_of_kind hf hc
  | drop k => exact h.2
  | sweep _ _ => exact h.2
  | _ => trivial

theorem Act.Edits.headless (h : a.Edits W) : a.headless := by
  cases a with
  | write _ _ _ | grant _ _ _ _ | send _ _ _ _ => exact RefOp.plain_head h.2
  | _ => trivial

theorem Act.Local.headless (h : a.Local) : a.headless := by
  cases a with
  | none | checkout _ _ _ => trivial
  | _ => exact h.elim

/-! ## Single calls -/

/-- Acts that make no note and remove nothing. -/
def Act.silent : Act → Prop
  | note _ | drop _ => False
  | _ => True

def Silent (X : World → Act → Prop) : Prop := ∀ w a, a.silent → X w a

variable {lease : Lease} {p : M α} {r : Ref}

section Calls

variable (hX : Silent X) (hP : Lasts env i P) (hw : P w)

include hX

theorem Does.reading (hp : Does env i (Eq .none) p) (hP : Lasts env i P) (hw : P w) :
    HeadOk env assumed X i (fun _ w => P w) p w :=
  hp.heads (fun _ h => h ▸ ⟨trivial, fun w => hX w _ trivial⟩) hP hw

theorem Does.checkingOut (hp : Does env i Act.Local p) (hP : Lasts env i P) (hw : P w) :
    HeadOk env assumed X i (fun _ w => P w) p w := by
  refine hp.heads (fun a h => ⟨h.headless, fun w => hX w a ?_⟩) hP hw
  cases a with
  | note _ | drop _ => exact h.elim
  | _ => trivial

theorem deleteObj_ended (hdrop : ∀ w, Ended i l e t w → X w (.drop k))
    (hs : k.slot = some (l, e, t)) (hw : Ended i l e t w) :
    HeadOk env assumed X i ⊤ (deleteObj k) w := by
  refine Spec.Holds.step Ended.lasts.stable hw fun w o _ hw _ => ⟨?_, trivial⟩
  have hdrop : HeadStep env X i w (w.dropObj k) := by
    refine ⟨.drop k, trivial, trivial, fun l' e' t' hs' => .inr ?_, hdrop w hw, rfl⟩
    obtain ⟨rfl, rfl, rfl⟩ : l = l' ∧ e = e' ∧ t = t' := by simpa using hs.symm.trans hs'
    exact ⟨hw.held, hw.spent⟩
  have hnone : HeadStep env X i w w := .refl (hX w _ trivial)
  split
  · exact hdrop
  · split
    · exact hdrop
    · exact hnone

include hP

theorem headless_step (hinv : (headLayer env assumed).spec.inv w) (hw : P w) (hok : a.ok env i w)
    (hh : a.headless) (hnote : a.silent) : HeadStep env X i w (a.run i w) ∧ P (a.run i w) :=
  ⟨⟨a, hok, hh.vouched hok, hh.clears, hX w a hnote, rfl⟩,
    hP.step hinv.1.1 hinv.2 hok (hh.vouched hok) hh.clears (fun _ => hh) hw⟩

include hw

theorem getRef_heads {R : World → Prop} {Q : Ref → World → Prop}
    (hR : ∀ w, (headLayer env assumed).spec.inv w → P w → R w)
    (hQ : ∀ w r, (headLayer env assumed).spec.inv w → P w → w.refs.lookup b = some r → Q r w) :
    HeadOk env assumed X i (fun res w => P w ∧ R w ∧ ∀ r, res = .ok r → Q r w) (getRef b) w := by
  refine Spec.Holds.read (fun w => .refl (hX w _ trivial)) (fun _ _ => rfl) hP.stable hw
    fun w o hinv hw => ⟨hw, hR w hinv hw, fun r hr => ?_⟩
  split at hr
  · cases hr
  split at hr
  · rename_i r' hcur
    obtain rfl := Except.ok.inj hr
    exact hQ w r' hinv hw hcur
  · cases hr

theorem putLease_heads {etag : Option Ref} (happly : op.apply etag = some (some r.stored))
    (hplain : op.plain) (hon : lease.on r.stored) (hlineage : r.stored.lineage = r.lineage) :
    HeadOk env assumed X i
      (fun res w => P w ∧ (res = .ok () → w.Version b r.stored))
      (putLease env i b op r etag lease) w := by
  have hhead : op.head = none := RefOp.plain_head hplain
  refine Spec.Holds.step hP.stable hw fun w o hinv hw _ => ?_
  by_cases hhit : w.refs.lookup b = etag ∧ !o.fail
  · have hok : Act.ok env i w (.grant b op r.stored lease) := ⟨hhit.1 ▸ happly, hplain, hon⟩
    obtain ⟨hstep, hw⟩ := headless_step hX hP hinv hw hok hhead trivial
    simp only [World.tryRef, hhit, and_self, if_true, ← hlineage]
    exact ⟨hstep, hw, fun _ => ⟨i, op, _, List.mem_cons_of_mem _ List.mem_cons_self⟩⟩
  · obtain ⟨a, hputs, hok, hrun, -⟩ := World.tryRef_act (b := b) happly hplain.by o w
    have ha : a.headless ∧ a.silent := by
      rcases hputs with rfl | ⟨rfl, -⟩ | rfl
      · exact ⟨trivial, trivial⟩
      · exact ⟨hhead, trivial⟩
      · exact ⟨hhead, trivial⟩
    obtain ⟨hstep, hw⟩ := headless_step hX hP hinv hw hok ha.1 ha.2
    simp only [World.tryRef, hhit, if_false] at hrun ⊢
    rw [← hrun]
    exact ⟨hstep, hw, by simp⟩

end Calls

/-! ## Taking the lease -/

/-- The checkpoint has its lease and has made no move. -/
structure Unmoved (i : Nat) (l : Lineage) (e t : Nat) (w : World) : Prop where
  unsent : Unsent i w
  held : w.Held i l e t

theorem Unmoved.lasts : Lasts env i (Unmoved i l e t) :=
  ⟨fun hr h hok hv hcl hi hw => ⟨Unsent.lasts.step hr h hok hv hcl hi hw.unsent,
    Lasts.held.step hr h hok hv hcl hi hw.held⟩⟩

theorem World.Held.of_version (hv : w.Version b r) (hh : r.leaseHolder = some i) :
    w.Held i r.lineage r.epoch (r.headTXID + 1) := ⟨b, r, hv, rfl, rfl, hh, rfl⟩

section Lease

variable (hX : Silent X)

include hX

theorem acquireLeaseRefIf_heads {ttl now : Nat} {check : Ref → M (Result Unit)}
    (hcheck : ∀ r, Does env i (Eq .none) (check r)) (hw : Unsent i w) :
    HeadOk env assumed X i
      (fun res w => Unsent i w ∧ ∀ lease ref, res = .granted lease ref →
        Unmoved i ref.lineage lease.epoch (ref.headTXID + 1) w)
      (acquireLeaseRefIf env i b i ttl now check) w := by
  refine ((getRef_does rfl).reading hX Unsent.lasts hw).bindOk
    (fun _ _ hw => ⟨hw, by simp⟩) fun ref w hw => ?_
  refine ((hcheck ref).reading hX Unsent.lasts hw).bindOk
    (fun _ _ hw => ⟨hw, by simp⟩) fun u w hw => ?_
  dsimp only
  split
  · exact ⟨hw, by simp⟩
  split
  · exact ⟨hw, by simp⟩
  split
  · exact ⟨hw, by simp⟩
  have happly : RefOp.apply (.edit (.acquire i ttl now)) (some ref) =
      some (some (ref.acquireLease i ttl now).stored) :=
    RefOp.apply_edit (if_neg (by simp_all))
  have hon : Lease.on ⟨i, (ref.acquireLease i ttl now).epoch,
      (ref.acquireLease i ttl now).leaseExpiry⟩ (ref.acquireLease i ttl now).stored := by
    simp [Lease.on, Ref.acquireLease]
  refine (putLease_heads hX Unsent.lasts hw happly trivial hon (by simp)).bind fun r w hw => ?_
  split
  · refine ⟨hw.1, fun lease ref hres => ?_⟩
    cases hres
    have hheld := World.Held.of_version (hw.2 rfl) hon.1
    exact ⟨hw.1, hon.2 ▸ hheld⟩
  · exact ⟨hw.1, by simp⟩
  · exact ⟨hw.1, by simp⟩

theorem settleAcquire_heads (hw : Unsent i w) : HeadOk env assumed X i
      (fun res w => Unsent i w ∧ ∀ lease ref, res = .ok (some lease, ref) →
        Unmoved i ref.lineage lease.epoch (ref.headTXID + 1) w)
      (settleAcquire i b i) w := by
  have hread : HeadOk env assumed X i
      (fun res w => Unsent i w ∧ ∀ ref, res = .ok ref → w.Version b ref) (getRefHeld i b i) w := by
    refine Spec.Holds.step Unsent.lasts.stable hw fun w o hinv hw _ => ?_
    have hnone : HeadStep env X i w w := .refl (hX w _ trivial)
    split
    · exact ⟨hnone, hw, by simp⟩
    cases hcur : w.refs.lookup b with
    | none => exact ⟨hnone, hw, by simp⟩
    | some r =>
      have hver : w.Version b r := hinv.1.1.current hcur
      dsimp only
      split
      · rename_i hh
        have hok : Act.ok env i w (.adopt b r ⟨i, r.epoch, r.leaseExpiry⟩) := ⟨hcur, hh, rfl⟩
        obtain ⟨hstep, hw⟩ := headless_step hX Unsent.lasts hinv hw hok trivial trivial
        refine ⟨hstep, hw, fun ref hres => ?_⟩
        cases hres
        exact hver.mono (List.subset_cons_self _ _)
      · refine ⟨hnone, hw, fun ref hres => ?_⟩
        cases hres
        exact hver
  refine hread.bindOk (fun _ _ hw => ⟨hw.1, by simp⟩) fun ref w hw => ?_
  dsimp only
  split
  · rename_i hh
    refine ⟨hw.1, fun lease ref' hres => ?_⟩
    obtain ⟨hlease, rfl⟩ := Prod.mk.inj (Except.ok.inj hres)
    cases hlease
    exact ⟨hw.1, .of_version (hw.2 ref rfl) hh⟩
  · exact ⟨hw.1, by simp⟩

theorem Does.returning (hp : Does env i (Act.Writes fun _ _ => True) p)
    (hstamp : ∀ w ev, Act.Writes (fun _ _ => True) (.note ev) → X w (.note ev)) :
    HeadOk env assumed X i ⊤ p w := by
  refine hp.heads (P := fun _ => True) (fun a h => ⟨h.edits.headless, fun w => ?_⟩) Lasts.true
    trivial
  cases a with
  | note ev => exact hstamp w ev h
  | drop _ => exact h.elim
  | _ => exact hX w _ trivial

theorem acquireCheckpointLease_heads {ttl n : Nat} {check : Ref → M (Result Unit)}
    (hstamp : ∀ w ev, Act.Writes (fun _ _ => True) (.note ev) → X w (.note ev))
    (hcheck : ∀ r, Does env i (Eq .none) (check r)) (hw : Unsent i w) :
    HeadOk env assumed X i
      (fun res w => ∀ lease ref, res = .ok (lease, ref) →
        Unmoved i ref.lineage lease.epoch (ref.headTXID + 1) w)
      (acquireCheckpointLease env i b ttl check n) w := by
  induction n generalizing w with
  | zero => exact fun _ _ h => by cases h
  | succ n ih =>
    refine ((now_does rfl).reading hX Unsent.lasts hw).bind fun started w hw => ?_
    refine (acquireLeaseRefIf_heads hX hcheck hw).bind fun r w hw => ?_
    split
    · rintro lease' ref' hres
      cases hres
      exact hw.2 _ _ rfl
    · exact ((releaseIfOurs_writes trivial).returning hX hstamp).bind fun _ _ _ _ _ h => by cases h
    · exact fun _ _ h => by cases h
    · refine (settleAcquire_heads hX hw.1).bind fun r w hw => ?_
      split
      · exact fun _ _ h => by cases h
      · refine ((hcheck _).reading hX Unmoved.lasts (hw.2 _ _ rfl)).bind fun r w hw => ?_
        cases r with
        | error x =>
          exact ((releaseCheckpointLease_writes trivial).returning hX hstamp).bind
            fun _ _ _ _ _ h => by cases h
        | ok u =>
          rintro lease' ref' hres
          cases hres
          exact hw
      · refine ((now_does rfl).reading hX Unsent.lasts hw.1).bind fun now w hw => ?_
        split
        · exact fun _ _ h => by cases h
        split
        · exact fun _ _ h => by cases h
        split
        · exact fun _ _ h => by cases h
        · exact ih hw

end Lease

/-! ## Uploading -/

/-- The object is there, and as long as no move was tried, none was made. -/
structure Moving (i : Nat) (l : Lineage) (e t : Nat) (k : DataKey) (attempted : Bool) (w : World) :
    Prop where
  has : Has i l e t k w
  unsent : attempted = false → Unsent i w

variable {attempted : Bool}

theorem Moving.lasts (hs : k.slot = some (l, e, t)) : Lasts env i (Moving i l e t k attempted) :=
  ⟨fun hr h hok hv hcl hi hw => ⟨(Has.lasts hs).step hr h hok hv hcl hi hw.has,
    fun ha => Unsent.lasts.step hr h hok hv hcl hi (hw.unsent ha)⟩⟩

variable {o : Obj}

section Upload

variable (hX : Silent X)

include hX

theorem putIf_heads (hP : Lasts env i P) (hw : P w) :
    HeadOk env assumed X i (fun res w => P w ∧ (res = .ok () → k ∈ w.objs)) (putIf env k o) w := by
  refine Spec.Holds.step hP.stable hw fun w oracle hinv hw _ => ?_
  have hnone := headless_step hX hP hinv hw (a := .none) trivial trivial trivial
  have hput := headless_step hX hP hinv hw (a := .put k o) trivial trivial trivial
  dsimp only
  split
  · exact ⟨hput.1, hput.2, fun _ => AList.mem_insert _ |>.mpr (.inl rfl)⟩
  split
  · exact ⟨hnone.1, hnone.2, by simp⟩
  rename_i hset
  cases oracle.fate with
  | lost => exact ⟨hnone.1, hnone.2, by simp⟩
  | landed =>
    dsimp only
    split
    · exact ⟨hput.1, hput.2, by simp⟩
    · exact ⟨hnone.1, hnone.2, by simp⟩
  | pending =>
    have hok : Act.ok env i w (.sendPut k o true) := by simpa [Act.ok] using hset
    have hsend := headless_step hX hP hinv hw hok trivial trivial
    exact ⟨hsend.1, hsend.2, by simp⟩

theorem put_heads (hP : Lasts env i P) (hw : P w) :
    HeadOk env assumed X i (fun res w => P w ∧ (res = .ok () → k ∈ w.objs)) (put env k o) w := by
  refine Spec.Holds.step hP.stable hw fun w oracle hinv hw _ => ?_
  have hnone := headless_step hX hP hinv hw (a := .none) trivial trivial trivial
  have hput := headless_step hX hP hinv hw (a := .put k o) trivial trivial trivial
  split
  · exact ⟨hput.1, hput.2, fun _ => AList.mem_insert _ |>.mpr (.inl rfl)⟩
  cases oracle.fate with
  | lost => exact ⟨hnone.1, hnone.2, by simp⟩
  | landed => exact ⟨hput.1, hput.2, by simp⟩
  | pending =>
    dsimp only
    split
    · exact ⟨hnone.1, hnone.2, by simp⟩
    · rename_i hset
      have hok : Act.ok env i w (.sendPut k o false) := by simpa [Act.ok] using hset
      have hsend := headless_step hX hP hinv hw hok trivial trivial
      exact ⟨hsend.1, hsend.2, by simp⟩

theorem deleteObj_unmoved (hdrop : ∀ w, Ended i l e t w → X w (.drop k))
    (hs : k.slot = some (l, e, t)) (hw : Unmoved i l e t w) :
    HeadOk env assumed X i ⊤ (deleteObj k) w := by
  refine Spec.Holds.step Unmoved.lasts.stable hw fun w oracle hinv hw has => ⟨?_, trivial⟩
  have hend := hw.unsent.spent hinv.1.1 hinv.2 hw.held
  exact (deleteObj_ended hX hdrop hs hend w .refl hinv oracle has).1

theorem putCheckpointObject_heads (hdrop : ∀ w, Ended i l e t w → X w (.drop k))
    (hs : k.slot = some (l, e, t)) (hw : Unmoved i l e t w) :
    HeadOk env assumed X i
      (fun res w => res = .ok () → Moving i l e t k false w) (putCheckpointObject env k o) w := by
  refine (putIf_heads hX Unmoved.lasts hw).bind fun r w hw => ?_
  split
  · exact fun _ => ⟨⟨hw.1.held, hw.2 rfl⟩, fun _ => hw.1.unsent⟩
  · -- The key is taken; what is there is compared.
    have hread : HeadOk env assumed X i
        (fun res w => ∀ got, res = .ok got → Moving i l e t k false w) (getObj k) w := by
      refine Spec.Holds.read (fun w => .refl (hX w _ trivial)) (fun _ _ => rfl) Unmoved.lasts.stable
        hw.1 fun w oracle _ hw got hres => ?_
      refine ⟨⟨hw.held, ?_⟩, fun _ => hw.unsent⟩
      split at hres
      · cases hres
      · split at hres
        · rename_i obj hobj
          exact AList.lookup_isSome.mp (by simp [hobj])
        · cases hres
    refine hread.bindOk (fun _ _ _ => fun h => by cases h) fun got w hw => ?_
    exact fun _ => hw got rfl
  · exact (deleteObj_unmoved hX hdrop hs hw.1).bind fun _ _ _ h => by cases h

end Upload

/-! ## Moving the head -/

/-- A record of the branch has carried the checkpoint, under an epoch of the thread. -/
def World.Carried (w : World) (i : Nat) (b : BranchId) (name : String) (t : Nat) : Prop :=
  ∃ r cp, w.Version b r ∧ r.checkpoints.lookup name = some cp ∧ cp.txid = t ∧
    w.Owner r.lineage cp.epoch i

theorem World.Carried.mono {w' : World} (h : w.Carried i b name t)
    (hlog : w.log ⊆ w'.log) : w'.Carried i b name t := by
  obtain ⟨r, cp, hv, hcp, ht, ho⟩ := h
  exact ⟨r, cp, hv.mono hlog, hcp, ht, ho.mono hlog⟩

theorem Lasts.carried : Lasts env i fun w => w.Carried i b name t :=
  .of_log fun hlog (h : World.Carried _ i b name t) => h.mono hlog

/-- The record read back has the lineage with the head below, and is not the holder's:
then the lease is over and the move was not made. -/
theorem World.Held.ended {c : HeadCommit} {cur : Ref} (h : w.Held i c.lineage c.epoch c.txid)
    (hr : RefsInv env w) (hh : HeadInv w) (hi : c.holder = i) (hcur : w.refs.lookup b = some cur)
    (hours : c.ours cur = false) (hbelow : c.unreferenced cur) :
    Ended i c.lineage c.epoch c.txid w := by
  simp only [HeadCommit.unreferenced, Bool.and_eq_true, decide_eq_true_eq] at hbelow
  obtain ⟨hl, hlt⟩ := hbelow
  have hover : w.Over c.lineage c.epoch := by
    obtain ⟨b', v, hv, hvl, hve, hvh, hvt⟩ := h
    obtain ⟨hle, hhead⟩ := hr.latest hcur hv (hvl.trans hl.symm)
    rcases lt_or_ge c.epoch cur.epoch with hlt' | hge
    · exact ⟨b, cur, hr.current hcur, hl, .inl hlt'⟩
    have hepoch : cur.epoch = c.epoch := by omega
    refine ⟨b, cur, hr.current hcur, hl, .inr ⟨hepoch, ?_⟩⟩
    cases hx : cur.leaseHolder with
    | none => rfl
    | some x =>
      -- The epoch has one holder, so the record would be the holder's own.
      have hxi : x = i := hr.owner ⟨b, cur, hr.current hcur, hl, hepoch, hx⟩
        ⟨b', v, hv, hvl, hve, hvh⟩
      have : c.ours cur := HeadCommit.ours_iff.mpr ⟨by rw [hx, hxi, hi], hepoch, hl, by omega⟩
      rw [hours] at this
      cases this
  refine ⟨h, fun {c'} hc hcl _ hct => ?_, fun _ _ _ _ _ => hover⟩
  obtain ⟨b', r, hv, hrl, htop⟩ := hh.top hc
  have := (hr.latest hcur hv ((hrl.trans hcl).trans hl.symm)).2
  omega

section Commit

variable {c : HeadCommit} {name : String} (hX : Silent X)

include hX

section

variable (hs : c.key.slot = some (c.lineage, c.epoch, c.txid)) (hi : c.holder = i)

include hs hi

theorem getRef_verdict (hname : c.name = some name)
    (hw : Moving i c.lineage c.epoch c.txid c.key attempted w) :
    HeadOk env assumed X i
      (fun res w => Moving i c.lineage c.epoch c.txid c.key attempted w ∧
        (attempted = false → Ended i c.lineage c.epoch c.txid w) ∧ ∀ cur, res = .ok cur →
        (∀ r, commitVerdict c attempted cur = some (.ok r) → w.Carried i b name c.txid) ∧
        ∀ x, commitVerdict c attempted cur = some (.error (x, true)) →
          Ended i c.lineage c.epoch c.txid w) (getRef b) w := by
  refine getRef_heads hX (Moving.lasts hs) hw
    (fun w hinv hw ha => (hw.unsent ha).spent hinv.1.1 hinv.2 hw.has.held)
    fun w cur hinv hw hcur => ⟨fun r hv => ?_, fun x hv => ?_⟩
  · unfold commitVerdict at hv
    split at hv
    · rename_i hland
      simp only [HeadCommit.landed, hname, Bool.and_eq_true] at hland
      obtain ⟨-, hland⟩ := hland
      split at hland
      · cases hland
      rename_i cp hcp
      simp only [Bool.and_eq_true, decide_eq_true_eq] at hland
      refine ⟨cur, cp, hinv.1.1.current hcur, hcp, hland.1.2, ?_⟩
      rw [hland.1.1, hland.2]
      exact hw.has.held.owner
    · split at hv <;> cases hv
  · unfold commitVerdict at hv
    split at hv
    · cases hv
    split at hv
    · obtain ⟨-, hdel⟩ : _ ∧ c.deletable attempted cur = true := by simpa using hv
      unfold HeadCommit.deletable at hdel
      cases attempted with
      | false => exact (hw.unsent rfl).spent hinv.1.1 hinv.2 hw.has.held
      | true =>
        simp only [Bool.not_true, Bool.false_eq_true, if_false, Bool.and_eq_true,
          Bool.not_eq_true'] at hdel
        exact hw.has.held.ended hinv.1.1 hinv.2 hi hcur hdel.1 hdel.2
    · cases hv

/-- A head write, to the object that is there.  The object stays, and a success is a
record. -/
theorem putRef_moves {etag : Option Ref} (hop : op.head = some c) (hby : op.by i)
    (happly : op.apply etag = some (some r.stored)) (hw : Has i c.lineage c.epoch c.txid c.key w) :
    HeadOk env assumed X i
      (fun res w => Has i c.lineage c.epoch c.txid c.key w ∧
        (res = .ok () → w.Version b r.stored)) (putRef env i b op r etag) w := by
  refine putRef_holds (Has.lasts hs).stable hw happly hby ?_
  intro w a res _ hw hputs hok hres _
  have hready : HeadReady w i b etag op := by
    intro c' hc'
    cases hop.symm.trans hc'
    exact ⟨hs, hi ▸ hw.held.owner, .inl hw.mem⟩
  have hlog : w.log ⊆ (a.run i w).log := a.log_run.subset
  have ha : a.clears i w ∧ a.silent ∧ (a.run i w).objs = w.objs := by
    rcases hputs with rfl | ⟨rfl, -⟩ | rfl <;> exact ⟨trivial, trivial, rfl⟩
  refine ⟨⟨a, hok, hputs.vouched hready, ha.1, hX w a ha.2.1, rfl⟩,
    ⟨hw.held.mono hlog, ha.2.2 ▸ hw.mem⟩, fun h => ?_⟩
  obtain rfl := hres h
  exact ⟨i, op, _, List.mem_cons_self⟩

theorem putHead_heads {createdAt now : Nat} {cur : Ref} (hname : c.name = some name)
    (hp : c.premise cur) (hw : Moving i c.lineage c.epoch c.txid c.key attempted w) :
    HeadOk env assumed X i
      (fun res w => Moving i c.lineage c.epoch c.txid c.key true w ∧
        (res = .ok () → w.Carried i b name c.txid))
      (putRef env i b (.edit (.checkpoint { c with createdAt, now }))
        (HeadCommit.advance { c with createdAt, now } cur) (some cur)) w := by
  obtain ⟨next, hnext⟩ : ∃ next : HeadCommit, next = { c with createdAt, now } := ⟨_, rfl⟩
  rw [← hnext]
  have hours : next.ours cur ∧ !cur.deleting ∧ !cur.reaping := by
    simpa [hnext, HeadCommit.premise, HeadCommit.ours, and_assoc] using hp
  have happly : RefOp.apply (.edit (.checkpoint next)) (some cur) =
      some (some (next.advance cur).stored) := RefOp.apply_edit (if_pos (by simp [hours]))
  have hs' : next.key.slot = some (next.lineage, next.epoch, next.txid) := hnext ▸ hs
  have hi' : next.holder = i := hnext ▸ hi
  have hw' : Has i next.lineage next.epoch next.txid next.key w := hnext ▸ hw.has
  have hhead : RefOp.head (.edit (.checkpoint next)) = some next := rfl
  refine (putRef_moves hX hs' hi' hhead hi' happly hw').mono fun res w hw => ?_
  rw [show next.lineage = c.lineage by rw [hnext], show next.epoch = c.epoch by rw [hnext],
    show next.txid = c.txid by rw [hnext], show next.key = c.key by rw [hnext]] at hw
  refine ⟨⟨hw.1, by simp⟩, fun h => ?_⟩
  have hcp : (next.advance cur).stored.checkpoints.lookup name =
      some ⟨c.txid, c.epoch, createdAt⟩ := by
    simp [hnext, HeadCommit.advance, HeadCommit.setHead, hname, Ref.setCheckpoint, Ref.touch]
  have hlin : (next.advance cur).stored.lineage = c.lineage := by
    have hcl := (HeadCommit.ours_iff.mp hours.1).2.2.1
    rw [show next.lineage = c.lineage by rw [hnext]] at hcl
    rw [← hcl]
    simp [HeadCommit.advance, HeadCommit.setHead, Ref.touch]
    split <;> rfl
  refine ⟨_, _, hw.2 h, hcp, rfl, ?_⟩
  rw [hlin]
  exact hw.1.held.owner

theorem commitCheckpoint_heads {n : Nat} (hname : c.name = some name)
    (hw : Moving i c.lineage c.epoch c.txid c.key attempted w) :
    HeadOk env assumed X i
      (fun res w => (∀ r, res = .ok r → w.Carried i b name c.txid) ∧
        ∀ x, res = .error (x, true) → Ended i c.lineage c.epoch c.txid w)
      (commitCheckpoint env i b c attempted n) w := by
  have hgone {attempted : Bool} {x : Err} {w : World}
      (hend : attempted = false → Ended i c.lineage c.epoch c.txid w) :
      (∀ r, (.error (x, !attempted) : Except (Err × Bool) Ref) = .ok r →
        w.Carried i b name c.txid) ∧ ∀ y,
        (.error (x, !attempted) : Except (Err × Bool) Ref) = .error (y, true) →
          Ended i c.lineage c.epoch c.txid w := by
    refine ⟨by simp, fun y h => hend ?_⟩
    simpa using (Prod.mk.inj (Except.error.inj h)).2
  induction n generalizing attempted w with
  | zero =>
    refine (getRef_verdict hX hs hi hname hw).bindOk (fun _ _ hw => hgone hw.2.1) fun cur w hw => ?_
    obtain ⟨hok, herr⟩ := hw.2.2 cur rfl
    refine ⟨fun r h => ?_, fun x h => ?_⟩
    · cases hv : commitVerdict c attempted cur with
      | none => simp [hv] at h
      | some v => exact hok r (by simpa [hv] using h)
    · cases hv : commitVerdict c attempted cur with
      | none => simp [hv] at h
      | some v => exact herr x (by simpa [hv] using h)
  | succ n ih =>
    refine (getRef_verdict hX hs hi hname hw).bindOk (fun _ _ hw => hgone hw.2.1) fun cur w hw => ?_
    obtain ⟨hok, herr⟩ := hw.2.2 cur rfl
    dsimp only
    split
    · rename_i v hv
      exact ⟨fun r h => hok r (h ▸ hv), fun x h => herr x (h ▸ hv)⟩
    · rename_i hv
      refine ((now_does rfl).reading hX (Moving.lasts hs) hw.1).bind fun createdAt w hw => ?_
      refine ((now_does rfl).reading hX (Moving.lasts hs) hw).bind fun touched w hw => ?_
      refine (putHead_heads hX hs hi hname (premise_of_commitVerdict hv) hw).bind fun r w hw => ?_
      cases r with
      | ok u => exact ⟨fun _ _ => hw.2 rfl, by simp⟩
      | error x => exact ih hw.1

end

end Commit

/-! ## The checkpoint -/

/-- A checkpoint is reported only when a record has carried it, and an object removed
only when its move is not made and can no longer be. -/
structure Reports (i : Nat) (b : BranchId) (name : String) (w : World) (a : Act) : Prop where
  carried : ∀ t, a = .note (.returned i b (.committed t)) → w.Carried i b name t
  ended : ∀ k l e t, a = .drop k → k.slot = some (l, e, t) → Ended i l e t w

variable {name : String}

theorem Reports.silent : Silent (Reports i b name) := by
  intro w a ha
  constructor
  · rintro t rfl
    exact ha.elim
  · rintro k l e t rfl
    exact ha.elim

theorem Reports.writes (w : World) (ev : Event) (h : Act.Writes W (.note ev)) :
    Reports i b name w (.note ev) := by
  constructor
  · rintro t ht
    obtain rfl := Act.note.inj ht
    exact h.elim
  · rintro k l e t ht
    cases ht

theorem Reports.drop (hs : k.slot = some (l, e, t)) (w : World) (hw : Ended i l e t w) :
    Reports i b name w (.drop k) := by
  constructor
  · rintro t ht
    cases ht
  · rintro k' l' e' t' hk hs'
    obtain rfl := Act.drop.inj hk
    obtain ⟨rfl, rfl, rfl⟩ : l = l' ∧ e = e' ∧ t = t' := by simpa using hs.symm.trans hs'
    exact hw

/-- What is left of a checkpoint under its lease once its head write is decided. -/
def afterCommit (host : Nat) (b : BranchId) (lease : Lease) (ref : Ref) (u : Upload) :
    Except (Err × Bool) Ref → M (Result Nat)
  | .error (e, deletable) => do
    if deletable then
      let _ ← deleteObj u.key
      return .error e
    else return .error e
  | .ok _ => do
    let headSum ← verifyOwnObject u
    match ← stampCheckpoint host b ref.lineage lease.epoch (ref.headTXID + 1) headSum u.chain with
    | .error e => return .error e
    | .ok trusted =>
      settleShadow host b trusted
      return .ok (ref.headTXID + 1)

/-- What is left of the operation once `commitCheckpoint` has reported. -/
def finishCheckpoint (env : Env) (i host : Nat) (b : BranchId) (lease : Lease) (ref : Ref)
    (u : Upload) (res : Except (Err × Bool) Ref) : M Unit := do
  let r ← (do
    match ← afterCommit host b lease ref u res with
    | .ok txid => return .ok txid
    | .error e =>
      releaseCheckpointLease env i b lease 3
      return .error e)
  report i b .committed r

theorem afterCommit_heads {ref : Ref} {u : Upload} {r : Except (Err × Bool) Ref}
    (hs : u.key.slot = some (ref.lineage, lease.epoch, ref.headTXID + 1))
    (hok : ∀ v, r = .ok v → w.Carried i b name (ref.headTXID + 1))
    (herr : ∀ x, r = .error (x, true) → Ended i ref.lineage lease.epoch (ref.headTXID + 1) w) :
    (headLayer env assumed).spec.Holds (HeadStep env (Reports i b name) i) i
      (fun res w => ∀ t, res = .ok t → w.Carried i b name t)
        (afterCommit host b lease ref u r) w := by
  have hX : Silent (Reports i b name) := Reports.silent
  unfold afterCommit
  split
  · split
    · rename_i hdel
      exact (deleteObj_ended hX (Reports.drop hs) hs (herr _ (by rw [hdel]))).bind
        fun _ _ _ _ h => by cases h
    · exact fun _ h => by cases h
  · refine (verifyOwnObject_reads.reading hX Lasts.carried (hok _ rfl)).bind fun sum w hw => ?_
    refine (stampCheckpoint_local.checkingOut hX Lasts.carried hw).bindOk
      (fun _ _ _ => fun _ h => by cases h) fun trusted w hw => ?_
    refine (settleShadow_local.checkingOut hX Lasts.carried hw).bind fun _ w hw => ?_
    rintro t h
    cases h
    exact hw

theorem checkpointLeased_heads {fuel : Nat} {opts : CheckpointOptions} {ref : Ref}
    (hw : Unmoved i ref.lineage lease.epoch (ref.headTXID + 1) w) :
    (headLayer env assumed).spec.Holds (HeadStep env (Reports i b name) i) i
      (fun res w => ∀ t, res = .ok t → w.Carried i b name t)
      (checkpointLeased env i host b name fuel opts lease ref) w := by
  have hX : Silent (Reports i b name) := Reports.silent
  refine ((ask_does rfl).reading hX Unmoved.lasts hw).bind fun busy w hw => ?_
  split
  · exact fun _ h => by cases h
  refine ((encodeCheckpoint_local.checkingOut hX Unmoved.lasts hw).returns
    encodeCheckpoint_key).bind
    fun r w hw => ?_
  cases r with
  | error x => exact fun _ h => by cases h
  | ok u =>
    have hs : u.key.slot = some (ref.lineage, lease.epoch, ref.headTXID + 1) := by
      rcases hw.2 u rfl with h | h <;> simp [h, DataKey.slot]
    refine ((ask_does rfl).reading hX Unmoved.lasts hw.1).bind fun lost w hw => ?_
    split
    · exact fun _ h => by cases h
    refine (putCheckpointObject_heads hX (Reports.drop hs) hs hw).bindOk
      (fun _ _ _ => fun _ h => by cases h) fun _ w hw => ?_
    refine ((ask_does rfl).reading hX (Moving.lasts hs) (hw rfl)).bind fun lost w hw => ?_
    split
    · exact (deleteObj_unmoved hX (Reports.drop hs) hs ⟨hw.unsent rfl, hw.has.held⟩).bind
        fun _ _ _ _ h => by cases h
    · refine Spec.Holds.bind (commitCheckpoint_heads (c := ⟨i, lease.epoch, ref.lineage,
        ref.headTXID + 1, u.key, some name, 0, 0⟩) hX hs rfl rfl hw) fun r w hw => ?_
      exact afterCommit_heads hs hw.1 hw.2

theorem checkpoint_heads {fuel : Nat} {opts : CheckpointOptions} (hw : Unsent i w) :
    (headLayer env assumed).spec.Holds (HeadStep env (Reports i b name) i) i ⊤
      (Op.prog env i (.checkpoint host b name fuel opts)) w := by
  have hX : Silent (Reports i b name) := Reports.silent
  have hcall : (headLayer env assumed).spec.Holds (HeadStep env (Reports i b name) i) i
      (fun _ w => Unsent i w) (note (.called i b (.checkpoint name))) w :=
    (note_does (A := (· = .note (.called i b (.checkpoint name)))) rfl trivial).heads
      (fun _ h => h ▸ ⟨trivial, fun _ => ⟨by simp, by simp⟩⟩)
      Unsent.lasts hw
  refine hcall.bind fun _ w hw => ?_
  have hrun : (headLayer env assumed).spec.Holds (HeadStep env (Reports i b name) i) i
      (fun res w => ∀ t, res = .ok t → w.Carried i b name t)
      (checkpoint env i host b name fuel opts) w := by
    refine (acquireCheckpointLease_heads hX Reports.writes (fun _ => checkpointCheck_reads) hw).bind
      fun r w hw => ?_
    split
    · exact fun _ h => by cases h
    refine (checkpointLeased_heads (hw _ _ rfl)).bind fun r w hw => ?_
    cases r with
    | ok t => exact hw
    | error x =>
      exact ((releaseCheckpointLease_writes trivial).returning hX Reports.writes).bind
        fun _ _ _ _ h => by cases h
  refine hrun.bind fun r w hw => ?_
  have hP : Lasts env i fun w => ∀ t, r = .ok t → w.Carried i b name t :=
    .of_log fun hlog h t ht => (h t ht).mono hlog
  refine Spec.Holds.step hP.stable hw fun w o hinv hw _ => ⟨?_, trivial⟩
  cases r with
  | error x =>
    exact ⟨.note (.returned i b .failed), trivial, trivial, trivial, ⟨by simp, by simp⟩, rfl⟩
  | ok t' =>
    refine ⟨.note (.returned i b (.committed t')), trivial, trivial, trivial,
      ⟨fun t ht => ?_, by simp⟩, rfl⟩
    obtain rfl : t' = t := by simpa using ht
    exact hw t' rfl

end Offshoot
