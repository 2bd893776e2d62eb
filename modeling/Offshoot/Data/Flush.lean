import Offshoot.Data.Writers

/-!
# Sessions keep the objects in order

A flush goes from the ref it reads to its commit as a `Writer`: it encodes, uploads
and moves the head, and removes its object only if it did not.  Between flushes the
session satisfies `SessionInv`, which is what the next one starts from.
-/

namespace Offshoot

open Conc Maps

variable {env : Env} {hset : env.settled = true} {gc : Prop}
  {assumed : World → World → Prop} {w : World} {i host : Nat} {b : BranchId}
variable {l : Lineage} {t fuel : Nat}

theorem SessionInv.stable : DataStable hset gc assumed i (SessionInv i b) :=
  dataLayer.stable fun _ _ _ hij hr h htr hs => hs.trans hr h hij htr

structure Attempt (i : Nat) (b : BranchId) (l : Lineage) (e t : Nat) (w : World) : Prop where
  writer : Writer i b l e t w
  busy : Busy i b w

theorem Attempt.stable : DataStable hset gc assumed i (Attempt i b l e t) :=
  dataLayer.stable fun _ _ _ hij hr h htr ha =>
    ⟨ha.writer.trans hr hij htr, ha.busy.trans hr h hij htr⟩

section

variable {ref : Ref} {key : DataKey} {txid e : Nat} {name : Option String}

theorem cleanupFlush_ok (hs : key.slot = some (l, e, t + 1)) (hw : Attempt i b l e t w) :
    DataOk hset gc assumed i (fun _ w => Busy i b w) (cleanupFlush b ref txid key) w := by
  refine ((getRef_does rfl).reads Attempt.stable hw).bindOk
    (fun _ _ hw => hw.busy) fun cur w hw => ?_
  dsimp only
  split
  · refine (deleteObj_ok Attempt.stable hw fun w _ h hw => ?_).bind fun _ w hw => hw.busy
    refine ⟨hw.writer.dropOK h hs, fun _ => ⟨hw.writer.same (.of_log rfl), ?_, hw.busy.forced⟩⟩
    exact fun k l e t hk => hw.busy.homely k l e t (World.has_dropObj.mp hk).2
  · exact hw.busy

/-- The upload is there, and the flush is about to move the head. -/
structure Committing (i : Nat) (b : BranchId) (l : Lineage) (e t : Nat) (k : DataKey)
    (w : World) : Prop where
  uploaded : Uploaded i b l e t k w
  busy : Busy i b w

theorem Committing.stable : DataStable hset gc assumed i (Committing i b l e t key) :=
  dataLayer.stable fun _ _ _ hij hr h htr hc =>
    ⟨hc.uploaded.trans hr hij htr, hc.busy.trans hr h hij htr⟩

theorem Committing.attempt (h : Committing i b l e t key w) :
    Attempt i b l e t w := ⟨h.uploaded.ready.writer, h.busy⟩

theorem commitFlush_ok {n : Nat} (hours : samePremise i e ref ref (t + 1)) (hl : ref.lineage = l)
    (hw : Committing i b l e t key w) :
    DataOk hset gc assumed i
      (fun r w => (r = .ok () → Flushed i b w) ∧ ∀ x, r = .error x → Busy i b w)
      (commitFlush env i b e (t + 1) key name n ref) w := by
  induction n generalizing ref w with
  | zero => exact ⟨by simp, fun _ _ => hw.busy⟩
  | succ n ih =>
    have hslot : key.slot = some (l, e, t + 1) := hw.uploaded.ready.slot
    refine ((now_does rfl).reads Committing.stable hw).bind fun createdAt w hw => ?_
    refine ((now_does rfl).reads Committing.stable hw).bind fun touched w hw => ?_
    -- The head write, against the ref the attempt has read.
    have hedit :
        RefEdit.edit (.flush ⟨i, e, ref.lineage, t + 1, key, name, createdAt, touched⟩) ref =
        some (HeadCommit.flushed ⟨i, e, ref.lineage, t + 1, key, name, createdAt, touched⟩ ref) :=
      if_pos (samePremise_ours hours)
    have happly := RefOp.apply_edit hedit
    refine (putRef_ok (Q := Flushed i b) Committing.stable hw happly rfl ?_).bind fun r w hw => ?_
    · intro w hr h hw hcur
      refine ⟨fun _ hl => (by cases hl), ⟨?_, fun _ _ hl => (by cases hl)⟩,
        hw.busy.commit hr h (by rfl) (hcur ▸ happly)⟩
      rintro c hc
      cases hc
      exact hw.uploaded.headOK hr hcur (samePremise_ours hours) rfl hl rfl rfl
    · split
      · exact ⟨fun _ => hw.1 rfl, by simp⟩
      · have hw := hw.2 _ rfl
        refine ((ask_does rfl).reads Committing.stable hw).bind fun budget w hw => ?_
        refine ((reread_reads).reads Committing.stable hw).bind fun r w hw => ?_
        have hgiveUp : DataOk hset gc assumed i
            (fun r w => (r = .ok () → Flushed i b w) ∧ ∀ x, r = .error x → Busy i b w)
            (do cleanupFlush b ref (t + 1) key; return (.error .cas : Result Unit)) w :=
          (cleanupFlush_ok hslot hw.attempt).bind fun _ w hb => ⟨by simp, fun _ _ => hb⟩
        cases r with
        | error e => exact hgiveUp
        | ok cur =>
          dsimp only
          split
          · rename_i hsame
            simp only [samePremise, Bool.and_eq_true, decide_eq_true_eq] at hsame
            exact ih (by simp [samePremise, hsame]) (hsame.1.2.trans hl) hw
          · exact hgiveUp
      · exact ⟨by simp, fun _ _ => (hw.2 _ rfl).busy⟩

/-! ## Encoding and uploading -/

structure Encoding (i : Nat) (b : BranchId) (l : Lineage) (e t : Nat) (k : DataKey)
    (w : World) : Prop where
  ready : Ready i b l e t k w
  busy : Busy i b w

theorem Encoding.stable : DataStable hset gc assumed i (Encoding i b l e t key) :=
  dataLayer.stable fun _ _ _ hij hr h htr hc =>
    ⟨hc.ready.trans hr hij htr, hc.busy.trans hr h hij htr⟩

theorem Encoding.put {o : Obj} (h : Encoding i b l e t key w) :
    Committing i b l e t key (w.putObj key o) := by
  refine ⟨h.ready.put, fun k l' e' t' hk hs ho => ?_, h.busy.forced⟩
  rcases World.has_putObj.mp hk with rfl | hk
  · obtain ⟨rfl, -, -⟩ : l = l' ∧ e = e' ∧ t + 1 = t' := by
      simpa using h.ready.slot.symm.trans hs
    obtain ⟨r, hv, hrl, -⟩ := h.ready.writer.head
    exact ⟨r, hv, hrl⟩
  · exact h.busy.homely k l' e' t' hk hs ho

theorem uploadFlush_ok {o : Obj} (hw : Encoding i b l e t key w) : DataOk hset gc assumed i
      (fun r w => (r = .ok () → Committing i b l e t key w) ∧ ∀ x, r = .error x → Busy i b w)
      (uploadFlush env key o) w := by
  have hput : ∀ w, RefsInv env w → DataInv w → Encoding i b l e t key w → PutOK i w key o ∧
      (Trans gc assumed i w (w.putObj key o) → Committing i b l e t key (w.putObj key o)) :=
    fun w _ _ hw => ⟨hw.ready.writer.putOK hw.ready.slot, fun _ => hw.put⟩
  refine (putIf_ok Encoding.stable hw hput).bind fun r w hw => ?_
  split
  · refine (put_ok Encoding.stable (hw.2 _ rfl).1 hput).mono fun r w hw => ?_
    exact ⟨hw.1, fun x hx => (hw.2 x hx).elim Encoding.busy Committing.busy⟩
  · exact ⟨hw.1, fun x hx => (hw.2 x hx).1.busy⟩

structure Starting (i : Nat) (b : BranchId) (l : Lineage) (e t : Nat) (w : World) : Prop where
  writer : Writer i b l e t w
  session : SessionInv i b w
  up : (w.sessions i).Up

theorem Starting.stable : DataStable hset gc assumed i (Starting i b l e t) :=
  dataLayer.stable fun _ _ _ hij hr h htr hs =>
    ⟨hs.writer.trans hr hij htr, hs.session.trans hr h hij htr,
      htr.keeps_session hij .captured hs.up⟩

theorem Starting.setSession {s : Session} (h : Starting i b l e t w)
    (hforce : s.forceSnapshot = (w.sessions i).forceSnapshot)
    (hgen : s.rebaseGen = (w.sessions i).rebaseGen) (hengine : s.engine = (w.sessions i).engine) :
    Starting i b l e t (w.setSession i s) := by
  have hup : s.Up := by simpa only [Session.Up, hgen, hengine] using h.up
  refine ⟨h.writer.same (.of_log rfl), ⟨h.session.homely, fun hl => ?_, ?_⟩, ?_⟩ <;>
    rw [World.sessions_setSession]
  · exact ⟨hforce.trans (h.session.forced hl).1, hup⟩
  · exact .inr hup
  · exact hup

theorem seedDivergence_ok (hw : Starting i b l e t w) :
    DataOk hset gc assumed i (fun _ w => Starting i b l e t w)
      (seedDivergence env i ref fuel) w := by
  refine ((getSession_does rfl).reads Starting.stable hw).bind fun s w hw => ?_
  split
  · exact hw
  split
  · exact withSession_ok Starting.stable hw fun w _ _ hw => hw.setSession rfl rfl rfl
  split
  · exact hw
  · refine ((chainAt_does rfl).reads Starting.stable hw).bind fun members w hw => ?_
    exact withSession_ok Starting.stable hw fun w _ _ hw => hw.setSession rfl rfl rfl

theorem Session.encode_spec {s s' : Session} {large fail : Bool} {r : Result Encoded}
    (h : s.encode env t large fail = (s', r)) :
    s'.forceSnapshot = true ∧ s'.rebaseGen = s.rebaseGen ∧ s'.engine = s.engine ∧
      ∀ enc, r = .ok enc → enc.snapshot = s.wantsSnapshot env t large := by
  obtain ⟨rfl, rfl⟩ := h
  refine ⟨rfl, rfl, rfl, fun enc henc => ?_⟩
  split at henc
  · cases henc
  · split at henc
    · cases henc
    · cases henc
      rfl

/-- Encoding.  A segment is chosen only when the session has no leftovers. -/
theorem encodeFlush_ok (hw : Starting i b ref.lineage e t w) : DataOk hset gc assumed i
      (fun r w => Busy i b w ∧ ∀ enc, r = .ok enc →
        Encoding i b ref.lineage e t (flushKey ref e (t + 1) enc.snapshot) w)
      (encodeFlush env i (t + 1)) w := by
  refine Spec.Holds.step Starting.stable hw fun w o hinv hw _ => ?_
  refine ⟨⟨.session i _, .inl rfl, (fun _ h => by cases h), trivial, rfl⟩, ?_⟩
  rcases hres : (w.sessions i).encode env (t + 1) o.yes o.fail with ⟨s', r⟩
  obtain ⟨hforce, hgen, hengine, hsnap⟩ := Session.encode_spec hres
  have hup : s'.Up := by simpa only [Session.Up, hgen, hengine] using hw.up
  have hbusy : Busy i b (w.setSession i s') :=
    ⟨hw.session.homely, World.sessions_setSession ▸ ⟨hforce, hup⟩⟩
  refine ⟨hbusy, fun enc henc => ⟨⟨hw.writer.same (.of_log rfl), ?_, ?_⟩, hbusy⟩⟩
  · exact slot_flushKey
  replace hsnap := hsnap enc henc
  cases hkind : enc.snapshot with
  | true => exact .inl rfl
  | false =>
    -- The flag was down, so nothing of the session's can be committed.
    have hdown : (w.sessions i).forceSnapshot = false := by
      have hsnap := hsnap.symm.trans hkind
      simp only [Session.wantsSnapshot, Bool.or_eq_false_iff] at hsnap
      exact hsnap.1.1.2
    by_cases hd : w.Dead (flushKey ref e (t + 1) false)
    · exact .inr (.inl hd)
    · refine .inr (.inr fun k' hk' hs => absurd (hw.session.forced ?_).1 (by simp [hdown]))
      refine ⟨k', _, _, _, hk', hs, hw.writer.owner, fun hd' => hd ?_⟩
      exact hd'.of_slot (slot_flushKey.trans hs.symm)

/-! ## The flush -/

theorem Flushed.stable : DataStable hset gc assumed i (Flushed i b) :=
  dataLayer.stable fun _ _ _ hij hr h htr hf => hf.trans hr h hij htr

theorem Flushed.confirm {enc : Encoded} (h : Flushed i b w) :
    SessionInv i b (w.setSession i ((w.sessions i).confirm t enc)) := by
  refine ⟨h.homely, fun hl => absurd hl h.clean, ?_⟩
  rw [World.sessions_setSession]
  have hup : ((w.sessions i).confirm t enc).Up := by
    unfold Session.confirm
    split <;> exact h.up
  exact .inr hup

theorem flushFrom_ok (hh : ref.leaseHolder = some i) (he : ref.epoch = e)
    (hw : Starting i b ref.lineage e ref.headTXID w) :
    DataOk hset gc assumed i (fun _ w => SessionInv i b w)
      (flushFrom env i b name fuel e ref) w := by
  refine (seedDivergence_ok hw).bind fun _ w hw => ?_
  refine (encodeFlush_ok hw).bindOk (fun _ _ hw => hw.1.sessionInv) fun enc w hw => ?_
  refine (uploadFlush_ok (hw.2 enc rfl)).bindOk
    (fun x _ hw => (hw.2 x rfl).sessionInv) fun u w hw => ?_
  have hours : samePremise i e ref ref (ref.headTXID + 1) := by simp [samePremise, hh, he]
  refine (commitFlush_ok hours rfl (hw.1 rfl)).bindOk
    (fun x _ hw => (hw.2 x rfl).sessionInv) fun u w hw => ?_
  refine (withSession_ok (R := fun _ w => SessionInv i b w) Flushed.stable (hw.1 rfl)
    fun w _ _ hw => hw.confirm).bind fun _ w hw => ?_
  exact hw

structure Drained (i : Nat) (b : BranchId) (w : World) : Prop where
  session : SessionInv i b w
  up : (w.sessions i).Up

theorem Drained.stable : DataStable hset gc assumed i (Drained i b) :=
  dataLayer.stable fun _ _ _ hij hr h htr hs =>
    ⟨hs.session.trans hr h hij htr, htr.keeps_session hij .captured hs.up⟩

theorem drainNow_ok (hw : SessionInv i b w) : DataOk hset gc assumed i
      (fun r w => SessionInv i b w ∧ (r = .ok () → (w.sessions i).Up)) (drainNow i) w := by
  refine read_ok SessionInv.stable hw (fun _ _ => rfl) fun o w _ _ hw hok => ?_
  have hrun : ¬ (o.fail || (w.sessions i).engine = .starting) := by
    intro hfail
    simp [hfail] at hok
  simp only [Bool.or_eq_true, decide_eq_true_eq, not_or] at hrun
  exact hw.started.resolve_left hrun.2

theorem getRef_writer {P : World → Prop} (hstable : DataStable hset gc assumed i P) (hw : P w) :
    DataOk hset gc assumed i
      (fun r w => P w ∧ ∀ ref, r = .ok ref → ref.leaseHolder = some i →
        Writer i b ref.lineage ref.epoch ref.headTXID w) (getRef b) w := by
  refine read_ok hstable hw (fun _ _ => rfl) fun o w hr h _ ref hok hh => ?_
  split at hok
  · cases hok
  split at hok
  · rename_i r hcur
    cases hok
    exact .of_current hr h hcur hh
  · cases hok

theorem flush_ok (hw : SessionInv i b w) :
    DataOk hset gc assumed i (fun _ w => SessionInv i b w) (flush env i b name fuel) w := by
  refine ((ask_does rfl).reads SessionInv.stable hw).bind fun dead w hw => ?_
  split
  · exact hw
  refine (drainNow_ok hw).bindOk (fun _ _ hw => hw.1) fun u w hw => ?_
  have hw : Drained i b w := ⟨hw.1, hw.2 rfl⟩
  refine ((getSession_does rfl).reads Drained.stable hw).bind fun s w hw => ?_
  refine (getRef_writer Drained.stable hw).bindOk (fun _ _ hw => hw.1.session) fun ref w hw => ?_
  dsimp only
  split
  · exact hw.1.session
  rename_i hours
  simp only [ne_eq, not_or, not_not] at hours
  split
  · exact hw.1.session
  · have hwr := hw.2 ref rfl hours.1
    exact flushFrom_ok hours.1 hours.2 ⟨hours.2 ▸ hwr, hw.1.session, hw.1.up⟩

end

/-! ## Opening, closing, scripts -/

structure Opened (i : Nat) (w : World) : Prop where
  unused : w.Unused i
  started : (w.sessions i).Started

theorem openSession_ok {ttl : Nat} {resume : Option Image} (hw : w.Unused i) :
    DataOk hset gc assumed i (fun r w => r = .ok () → Opened i w)
      (openSession env i host b ttl fuel resume) w := by
  refine ((openLease_edits (W := ⊤) trivial).unused (fun _ => Act.Edits.tame) hw).bindOk
    (fun _ _ _ => fun h => by cases h) fun lease w hw => ?_
  refine (checkoutProven_local.unused (fun _ h => h.still.tame) hw).bind fun r w hw => ?_
  cases r with
  | error x =>
    exact ((releaseLease_edits (W := ⊤) trivial).free fun _ => Act.Edits.tame).bind
      fun _ _ _ => fun h => by cases h
  | ok res =>
    cases resume with
    | none =>
      refine (withSession_ok (R := fun _ w => Opened i w) World.Unused.stable hw
        fun w _ _ hu => ⟨hu, ?_⟩).bind fun _ w hw _ => hw
      rw [World.sessions_setSession]
      exact .inl rfl
    | some img =>
      refine (withSession_ok (R := fun _ w => w.Unused i) World.Unused.stable hw
        fun w _ _ hu => hu).bind fun _ w hw => ?_
      refine (withSession_ok (R := fun ok w => w.Unused i ∧ (ok = true → (w.sessions i).Started))
        World.Unused.stable hw fun w _ _ hu => ⟨hu, fun hok => ?_⟩).bind fun ok w hw => ?_
      · rw [World.sessions_setSession]
        obtain ⟨s', hs'⟩ := Option.isSome_iff_exists.mp hok
        have hgen := (Session.rebaseline_gen hs').1
        simp only [hs', Option.getD_some]
        exact .inr (.inl (by omega))
      · cases ok with
        | true => exact fun _ => ⟨hw.1, hw.2 rfl⟩
        | false =>
          refine (withSession_ok (R := fun _ _ => True) World.Unused.stable hw.1
            fun _ _ _ _ => trivial).bind fun _ w _ => ?_
          exact ((releaseLease_edits (W := ⊤) trivial).free fun _ => Act.Edits.tame).bind
            fun _ _ _ => fun h => by cases h

theorem closeSession_ok : DataOk hset gc assumed i ⊤ (closeSession env i host b) w := by
  have hclose : Does env i Act.Tame (closeSession env i host b) := by
    refine .bind (Does.read trivial fun _ _ => rfl) fun drained =>
      .bind (getSession_does trivial) fun s => .bind (withSession_does fun _ => trivial) fun _ =>
        .bind ?_ fun _ => .bind (getSession_does trivial) fun _ =>
          (releaseLease_edits (W := ⊤) trivial).mono fun _ => Act.Edits.tame
    unfold refreshAtClose
    split
    · split
      · exact commitSidecarRefresh_local.mono fun _ h => h.still.tame
      · exact .pure _
    · exact .pure _
  exact hclose.free fun _ h => h

theorem SessionInv.note {e : Event} (he : e.quiet) (h : SessionInv i b w) :
    SessionInv i b (w.note e) := by
  have hs : w.SameWrites (w.note e) := .note (by rintro _ _ _ _ _ rfl; exact he)
  refine ⟨fun k l e t hk hks ho => ?_, fun hl => h.forced ?_, h.started⟩
  · exact hs.version ▸ h.homely k l e t hk hks (hs.owner ▸ ho)
  · obtain ⟨k, l, e, t, hk, hks, ho, hd⟩ := hl
    exact ⟨k, l, e, t, hk, hks, hs.owner ▸ ho, fun hd' => hd (hd'.same hs fun _ => rfl)⟩

theorem runScript_ok {script : List Command} (hw : SessionInv i b w) :
    DataOk hset gc assumed i ⊤ (runScript env i host b fuel script) w := by
  induction script generalizing w with
  | nil => exact trivial
  | cons c rest ih =>
    cases c with
    | close => exact closeSession_ok.bind .ret
    | flush name =>
      exact (calling_ok SessionInv.stable SessionInv.note hw fun w => flush_ok).bind
        fun _ w hw => ih hw

theorem session_ok {ttl : Nat} {resume : Option Image} {script : List Command} (hw : w.Unused i) :
    DataOk hset gc assumed i ⊤ (session env i host b ttl fuel resume script) w := by
  refine (openSession_ok hw).bindOk .ret fun u w hw => ?_
  exact runScript_ok (.of_unused (hw rfl).unused (hw rfl).started)

end Offshoot
