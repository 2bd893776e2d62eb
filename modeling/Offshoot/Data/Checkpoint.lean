import Offshoot.Data.Writers

/-!
# At-rest checkpoints keep the objects in order

A checkpoint's thread writes one object.  Until it does, no object of any epoch it
holds exists, so the object it creates is alone in its slot.
-/

namespace Offshoot

open Conc Maps

variable {env : Env} {hset : env.settled = true} {gc : Prop}
  {assumed : World → World → Prop} {w : World} {i host : Nat} {b : BranchId}

structure Leased (i : Nat) (b : BranchId) (l : Lineage) (e t : Nat) (w : World) : Prop where
  unused : w.Unused i
  writer : Writer i b l e t w

variable {opts : CheckpointOptions} {k : DataKey} {fuel : Nat}

section

variable {l : Lineage} {e t : Nat}

theorem Leased.stable : DataStable hset gc assumed i (Leased i b l e t) :=
  dataLayer.stable fun _ _ _ hij hr h htr hl =>
    ⟨htr.unused hr h (.inl hij) hl.unused, hl.writer.trans hr hij htr⟩

theorem putLease_ok {op : RefOp} {r : Ref} {etag : Option Ref} {lease : Lease} (hw : w.Unused i)
    (happly : op.apply etag = some (some r.stored)) (hplain : op.plain) (hon : lease.on r.stored)
    (hlineage : r.stored.lineage = r.lineage) (hholder : lease.holder = i) :
    DataOk hset gc assumed i
      (fun res w => w.Unused i ∧
        (res = .ok () → Leased i b r.stored.lineage lease.epoch r.stored.headTXID w))
      (putLease env i b op r etag lease) w := by
  refine Spec.Holds.step World.Unused.stable hw fun w o hinv hw has => ?_
  replace has := has.2
  by_cases hhit : w.refs.lookup b = etag ∧ !o.fail
  · have hok : Act.ok env i w (.grant b op r.stored lease) := ⟨hhit.1 ▸ happly, hplain, hon⟩
    have hname : ∀ l, Act.names (.grant b op r.stored lease) = some l → w.Draft i l := by
      simp [Act.names, Act.plain_names hplain]
    have htr : Trans gc assumed i w (Act.run i w (.grant b op r.stored lease)) := by
      refine Act.trans hset hinv.1 hok hname trivial ?_
      simp only [World.tryRef, hhit, and_self, if_true, ← hlineage] at has
      exact has
    have hu := htr.unused hinv.1 hinv.2 (.inr rfl) hw
    have hr := hinv.1.run hok hname
    have h := htr.inv hinv.1 hinv.2
    have hcur : (Act.run i w (.grant b op r.stored lease)).refs.lookup b = some r.stored := by
      simp [Act.run, World.note, World.lookup_land]
    have hwr := Writer.of_current hr h hcur (hholder ▸ hon.1)
    simp only [World.tryRef, hhit, and_self, if_true, ← hlineage]
    exact ⟨⟨_, hok, hname, trivial, rfl⟩, hu, fun _ => ⟨hu, hon.2 ▸ hwr⟩⟩
  · simp only [World.tryRef, hhit, if_false, hset, if_true]
    exact ⟨.refl, hw, fun h => by cases h⟩

theorem acquireLeaseRefIf_ok {ttl now : Nat} {check : Ref → M (Result Unit)}
    (hcheck : ∀ r, Does env i (Eq .none) (check r)) (hw : w.Unused i) :
    DataOk hset gc assumed i
      (fun res w => w.Unused i ∧ ∀ lease ref, res = .granted lease ref →
        Leased i b ref.lineage lease.epoch ref.headTXID w)
      (acquireLeaseRefIf env i b i ttl now check) w := by
  refine ((getRef_does rfl).reads World.Unused.stable hw).bindOk
    (fun _ _ hw => ⟨hw, by simp⟩) fun ref w hw => ?_
  refine ((hcheck ref).reads World.Unused.stable hw).bindOk
    (fun _ _ hw => ⟨hw, by simp⟩) fun u w hw => ?_
  dsimp only
  split
  · exact ⟨hw, by simp⟩
  split
  · exact ⟨hw, by simp⟩
  split
  · exact ⟨hw, by simp⟩
  have happly : RefOp.apply (.edit (.acquire i ttl now)) (some ref) =
      some (some (ref.acquireLease i ttl now).stored) :=
    RefOp.apply_edit (if_neg (by simp_all))
  refine (putLease_ok hw happly trivial ?_ (by simp) rfl).bind fun r w hw => ?_
  · simp [Lease.on, Ref.acquireLease]
  split
  · refine ⟨hw.1, fun lease ref hres => ?_⟩
    cases hres
    exact hw.2 rfl
  · exact ⟨hw.1, by simp⟩
  · exact ⟨hw.1, by simp⟩

theorem settleAcquire_ok (hw : w.Unused i) : DataOk hset gc assumed i
      (fun res w => w.Unused i ∧ ∀ lease ref, res = .ok (some lease, ref) →
        Leased i b ref.lineage lease.epoch ref.headTXID w)
      (settleAcquire i b i) w := by
  have hread : DataOk hset gc assumed i
      (fun res w => w.Unused i ∧ ∀ ref, res = .ok ref → ref.leaseHolder = some i →
        Leased i b ref.lineage ref.epoch ref.headTXID w) (getRefHeld i b i) w := by
    refine Spec.Holds.step World.Unused.stable hw fun w o hinv hw _ => ?_
    split
    · exact ⟨.refl, hw, fun _ h => by cases h⟩
    cases hcur : w.refs.lookup b with
    | none =>
      exact ⟨.refl, hw, fun _ h => by cases h⟩
    | some r =>
      dsimp only
      split
      · rename_i hh
        have hs : w.SameWrites (w.note (.granted i b r.lineage ⟨i, r.epoch, r.leaseExpiry⟩)) :=
          .note (by simp)
        have hu : (w.note (.granted i b r.lineage ⟨i, r.epoch, r.leaseExpiry⟩)).Unused i :=
          fun k l e t hk hks ho => hw k l e t hk hks (hs.owner ▸ ho)
        refine ⟨⟨.adopt b r _, ⟨hcur, hh, rfl⟩, (fun _ h => by cases h), trivial, rfl⟩, hu,
          fun ref hres _ => ?_⟩
        cases hres
        exact ⟨hu, (Writer.of_current hinv.1 hinv.2 hcur hh).same hs⟩
      · rename_i hh
        refine ⟨.refl, hw, fun ref hres hh' => ?_⟩
        cases hres
        exact absurd hh' hh
  refine hread.bindOk (fun _ _ hw => ⟨hw.1, by simp⟩) fun ref w hw => ?_
  dsimp only
  split
  · rename_i hh
    refine ⟨hw.1, fun lease ref' hres => ?_⟩
    obtain ⟨hlease, rfl⟩ := Prod.mk.inj (Except.ok.inj hres)
    cases hlease
    exact hw.2 ref rfl hh
  · exact ⟨hw.1, by simp⟩

theorem acquireCheckpointLease_ok {ttl n : Nat} {check : Ref → M (Result Unit)}
    (hcheck : ∀ r, Does env i (Eq .none) (check r)) (hw : w.Unused i) :
    DataOk hset gc assumed i
      (fun res w => ∀ lease ref, res = .ok (lease, ref) →
        Leased i b ref.lineage lease.epoch ref.headTXID w)
      (acquireCheckpointLease env i b ttl check n) w := by
  induction n generalizing w with
  | zero => exact fun _ _ h => by cases h
  | succ n ih =>
    refine ((now_does rfl).reads World.Unused.stable hw).bind fun started w hw => ?_
    refine (acquireLeaseRefIf_ok hcheck hw).bind fun r w hw => ?_
    split
    · rintro lease' ref' hres
      cases hres
      exact hw.2 _ _ rfl
    · exact ((releaseIfOurs_edits (W := ⊤) trivial).free fun _ => Act.Edits.tame).bind
        fun _ _ _ _ _ h => by cases h
    · exact fun _ _ h => by cases h
    · refine (settleAcquire_ok hw.1).bind fun r w hw => ?_
      split
      · exact fun _ _ h => by cases h
      · refine ((hcheck _).reads Leased.stable (hw.2 _ _ rfl)).bind fun r w hw => ?_
        cases r with
        | error x =>
          exact ((releaseCheckpointLease_edits (W := ⊤) trivial).free fun _ => Act.Edits.tame).bind
            fun _ _ _ _ _ h => by cases h
        | ok u =>
          rintro lease' ref' hres
          cases hres
          exact hw
      · refine ((now_does rfl).reads World.Unused.stable hw.1).bind fun now w hw => ?_
        split
        · exact fun _ _ h => by cases h
        split
        · exact fun _ _ h => by cases h
        split
        · exact fun _ _ h => by cases h
        · exact ih hw

/-! ## Under the lease -/

theorem Leased.setCheckout {b' : BranchId} {c : Checkout} (h : Leased i b l e t w) :
    Leased i b l e t (w.setCheckout host b' c) := ⟨h.unused, h.writer.same (.of_log rfl)⟩

theorem encodeCheckpoint_slot {ref : Ref} (hw : Leased i b l e t w) : DataOk hset gc assumed i
      (fun r w => Leased i b l e t w ∧ ∀ u, r = .ok u →
        u.key.slot = some (ref.lineage, e, ref.headTXID + 1))
      (encodeCheckpoint env host b ref e fuel opts) w := by
  refine (planChain_local.checkouts Leased.stable (fun _ _ _ _ h => h.setCheckout) hw).bind
    fun members w hw => ?_
  refine ((ask_does rfl).reads Leased.stable hw).bind fun large w hw => ?_
  refine ((getCheckout_does rfl).reads Leased.stable hw).bind fun c w hw => ?_
  split
  · split
    · exact ⟨hw, by simp⟩
    · refine ⟨hw, fun u hu => ?_⟩
      cases hu
      simp [DataKey.slot]
  · refine ((getCheckout_does rfl).reads Leased.stable hw).bind fun c w hw => ?_
    split
    · exact ⟨hw, by simp⟩
    split
    · exact ⟨hw, by simp⟩
    · refine ⟨hw, fun u hu => ?_⟩
      cases hu
      rfl

theorem Uploaded.stable : DataStable hset gc assumed i (Uploaded i b l e t k) :=
  dataLayer.stable fun _ _ _ hij hr _ htr hu => hu.trans hr hij htr

theorem Writer.stable : DataStable hset gc assumed i (Writer i b l e t) :=
  dataLayer.stable fun _ _ _ hij hr _ htr hu => hu.trans hr hij htr

theorem deleteOwn_ok (hk : k.slot = some (l, e, t + 1)) (hw : Writer i b l e t w) :
    DataOk hset gc assumed i ⊤ (deleteObj k) w :=
  (deleteObj_ok Writer.stable hw fun _ _ h hw =>
    ⟨hw.dropOK h hk, fun _ => hw.same (.of_log rfl)⟩).mono fun _ _ _ => trivial

theorem putCheckpointObject_ok {o : Obj} (hk : k.slot = some (l, e, t + 1))
    (hw : Leased i b l e t w) :
    DataOk hset gc assumed i (fun r w => r = .ok () → Uploaded i b l e t k w)
      (putCheckpointObject env k o) w := by
  have hput : ∀ w, RefsInv env w → DataInv w → Leased i b l e t w → PutOK i w k o ∧
      (Trans gc assumed i w (w.putObj k o) → Uploaded i b l e t k (w.putObj k o)) := by
    refine fun w _ _ hw => ⟨hw.writer.putOK hk, fun _ => Ready.put ⟨hw.writer, hk, ?_⟩⟩
    exact .inr (.inr fun k' hk' hs => absurd hw.writer.owner (hw.unused k' _ _ _ hk' hs))
  refine (putIf_ok Leased.stable hw hput).bind fun r w hw => ?_
  split
  · exact fun _ => hw.1 rfl
  · -- The key cannot be taken: the thread has put nothing yet.
    obtain ⟨hw, htaken⟩ := hw.2 _ rfl
    exact absurd hw.writer.owner (hw.unused k _ _ _ (htaken rfl) hk)
  · exact (deleteOwn_ok hk (hw.2 _ rfl).1.writer).bind fun _ _ _ h => by cases h

theorem commitCheckpoint_ok {c : HeadCommit} {attempted : Bool} {n : Nat} (hci : c.holder = i)
    (hcl : c.lineage = l) (hce : c.epoch = e) (hct : c.txid = t + 1)
    (hw : Uploaded i b l e t c.key w) :
    DataOk hset gc assumed i
      (fun r w => ∀ x, r = .error x → Uploaded i b l e t c.key w)
      (commitCheckpoint env i b c attempted n) w := by
  induction n generalizing attempted w with
  | zero =>
    refine ((getRef_does rfl).reads Uploaded.stable hw).bind fun r w hw => ?_
    cases r <;> exact fun _ _ => hw
  | succ n ih =>
    refine ((getRef_does rfl).reads Uploaded.stable hw).bindOk
      (fun _ _ hw => fun _ _ => hw) fun cur w hw => ?_
    dsimp only
    split
    · exact fun _ _ => hw
    rename_i hv
    have hp := premise_of_commitVerdict hv
    refine ((now_does rfl).reads Uploaded.stable hw).bind fun createdAt w hw => ?_
    refine ((now_does rfl).reads Uploaded.stable hw).bind fun touched w hw => ?_
    -- The clock readings are not part of the premise.
    obtain ⟨next, hnext⟩ : ∃ next : HeadCommit, next = { c with createdAt, now := touched } :=
      ⟨_, rfl⟩
    have hours : next.ours cur ∧ !cur.deleting ∧ !cur.reaping := by
      simpa [hnext, HeadCommit.premise, HeadCommit.ours, and_assoc] using hp
    have happly : RefOp.apply (.edit (.checkpoint next)) (some cur) =
        some (some (next.advance cur).stored) :=
      RefOp.apply_edit (if_pos (by simp [hours]))
    have hhead {w : World} (hr : RefsInv env w) (hw : Uploaded i b l e t c.key w)
        (hcur : w.refs.lookup b = some cur) : HeadOK w next :=
      hw.headOK hr hcur hours.1 (by rw [hnext]) (by rw [hnext, hcl]) (by rw [hnext, hce])
        (by rw [hnext, hct])
    rw [← hnext]
    refine (putRef_ok (Q := fun _ => True) Uploaded.stable hw happly (by rw [hnext]; exact hci)
      ?_).bind fun r w hw => ?_
    · intro w hr h hw hcur
      refine ⟨fun _ hl => (by cases hl), ⟨?_, fun _ _ hl => (by cases hl)⟩, fun _ => trivial⟩
      rintro d hd
      cases hd
      exact hhead hr hw hcur
    · cases r with
      | ok u => exact fun _ h => by cases h
      | error x => exact ih (hw.2 x rfl)

end

theorem checkpointLeased_ok {name : String} {lease : Lease} {ref : Ref}
    (hw : Leased i b ref.lineage lease.epoch ref.headTXID w) :
    DataOk hset gc assumed i ⊤ (checkpointLeased env i host b name fuel opts lease ref) w := by
  refine ((ask_does rfl).reads Leased.stable hw).bind fun busy w hw => ?_
  split
  · exact trivial
  refine (encodeCheckpoint_slot hw).bindOk .ret fun u w hw => ?_
  obtain ⟨hw, hslot⟩ := hw
  have hslot := hslot u rfl
  refine ((ask_does rfl).reads Leased.stable hw).bind fun lost w hw => ?_
  split
  · exact trivial
  refine (putCheckpointObject_ok hslot hw).bindOk .ret fun _ w hw => ?_
  refine ((ask_does rfl).reads Uploaded.stable (hw rfl)).bind fun lost w hw => ?_
  split
  · exact (deleteOwn_ok hslot hw.ready.writer).bind .ret
  refine Spec.Holds.bind (commitCheckpoint_ok rfl rfl rfl rfl hw) fun r w hw => ?_
  split
  · split
    · exact (deleteOwn_ok hslot (hw _ rfl).ready.writer).bind .ret
    · exact trivial
  · -- Committed: what is left is local.
    refine (verifyOwnObject_reads.reads (Spec.Stable.const True) trivial).bind fun sum w _ => ?_
    refine (stampCheckpoint_local.free fun _ h => h.still.tame).bindOk .ret fun trusted w _ => ?_
    exact (settleShadow_local.free fun _ h => h.still.tame).bind .ret

theorem checkpoint_ok {name : String} (hw : w.Unused i) :
    DataOk hset gc assumed i ⊤ (checkpoint env i host b name fuel opts) w := by
  refine (acquireCheckpointLease_ok (fun _ => checkpointCheck_reads) hw).bind fun r w hw => ?_
  split
  · exact trivial
  refine (checkpointLeased_ok (hw _ _ rfl)).bind fun r w _ => ?_
  cases r with
  | ok txid => exact trivial
  | error x =>
    exact ((releaseCheckpointLease_edits (W := ⊤) trivial).free fun _ => Act.Edits.tame).bind
        .ret

end Offshoot
